import LispKit.Proofs.Automaton.Awaited
import LispKit.Proofs.Parser.Complete

/-! What a parser reads does not depend on the reductions that it makes before it looks at the next token: an error is
met later and on another stack, but at the same token. -/

namespace LispKit.Parser

open Vocabulary Collection Lookahead ParseTree List

variable {S V σ E : Type} [DecidableEq S] [Vocabulary S] {h : Host S V σ E} {α : Type} {Q : Quiet h α}
variable {t : Tables S} {g : Grammar S} {p : Production S} {A : Collection S} {start : S}
variable {c : Config S V σ} {ss : List (StackSymbol S V)} {w : List α}

/-- The tree that is read of the tokens and whether there was no error, if every action is taken with the next token
at hand. A token that has no action is dropped together with the stack. -/
inductive Outcome (Q : Quiet h α) (action? : Nat → S → Option Action) (g : Grammar S) (A : Collection S) :
    List Nat → List (ParseTree S α) → List α → Bool → Option (ParseTree S α) × Bool → Prop
  | shift {q r : Nat} {qs : List Nat} {ts : List (ParseTree S α)} {a : α} {w : List α} {clean : Bool}
      {o : Option (ParseTree S α) × Bool} : action? q (Q.type a) = some (.shift r) →
      Outcome Q action? g A (r :: q :: qs) (leaf a :: ts) w clean o → Outcome Q action? g A (q :: qs) ts (a :: w) clean o
  | reduce {pr : Production S} {q q' r : Nat} {qs qs' : List Nat} {ts : List (ParseTree S α)} {w : List α} {clean : Bool}
      {o : Option (ParseTree S α) × Bool} : action? q (Q.ahead w) = some (.reduce pr.number) → pr ∈ g.productions →
      (q :: qs).drop pr.symbols.length = q' :: qs' → A.goto? q' pr.name = some r →
      Outcome Q action? g A (r :: q' :: qs')
        (node pr.name (ts.take pr.symbols.length).reverse :: ts.drop pr.symbols.length) w clean o →
      Outcome Q action? g A (q :: qs) ts w clean o
  | accept {q : Nat} {qs : List Nat} {tree : ParseTree S α} {clean : Bool} : action? q endMark = some .accept →
      Outcome Q action? g A (q :: qs) [tree] [] clean (some tree, clean)
  | fail {q : Nat} {qs : List Nat} {ts : List (ParseTree S α)} {clean : Bool} : action? q endMark = none →
      Outcome Q action? g A (q :: qs) ts [] clean (none, false)
  | discard {q : Nat} {qs : List Nat} {ts : List (ParseTree S α)} {a : α} {w : List α} {clean : Bool}
      {o : Option (ParseTree S α) × Bool} : action? q (Q.type a) = none → Outcome Q action? g A [0] [] w false o →
      Outcome Q action? g A (q :: qs) ts (a :: w) clean o

section Outcome

variable {action? : Nat → S → Option Action} {st : List Nat} {ts : List (ParseTree S α)} {clean : Bool}
variable {o o' : Option (ParseTree S α) × Bool} {pr : Production S} {types : List S} {q : Nat}

theorem Outcome.unique (hg : g.Numbered) (ho : Outcome Q action? g A st ts w clean o)
    (ho' : Outcome Q action? g A st ts w clean o') : o = o' := by
  induction ho with
  | shift hact _ ih =>
    cases ho' with
    | shift hact' ho' =>
      rw [hact] at hact'
      obtain rfl := Action.shift.inj (Option.some.inj hact')
      exact ih ho'
    | reduce hact' => exact nomatch hact.symm.trans hact'
    | discard hact' => exact nomatch hact.symm.trans hact'
  | @reduce pr _ _ _ _ _ _ _ _ _ hact hpr hdrop hgoto _ ih =>
    cases ho' with
    | shift hact' => exact nomatch hact.symm.trans hact'
    | @reduce pr' _ _ _ _ _ _ _ _ _ hact' hpr' hdrop' hgoto' ho' =>
      have hnum : pr.number = pr'.number := Action.reduce.inj (Option.some.inj (hact.symm.trans hact'))
      obtain rfl := hg.eq_of_number (mem_append_right _ hpr) (mem_append_right _ hpr') hnum
      obtain ⟨rfl, rfl⟩ := List.cons.inj (hdrop.symm.trans hdrop')
      obtain rfl := Option.some.inj (hgoto.symm.trans hgoto')
      exact ih ho'
    | accept hact' => exact nomatch hact.symm.trans hact'
    | fail hact' => exact nomatch hact.symm.trans hact'
    | discard hact' => exact nomatch hact.symm.trans hact'
  | accept hact =>
    cases ho' with
    | reduce hact' => exact nomatch hact.symm.trans hact'
    | accept _ => rfl
    | fail hact' => exact nomatch hact.symm.trans hact'
  | fail hact =>
    cases ho' with
    | reduce hact' => exact nomatch hact.symm.trans hact'
    | accept hact' => exact nomatch hact.symm.trans hact'
    | fail _ => rfl
  | discard hact _ ih =>
    cases ho' with
    | shift hact' => exact nomatch hact.symm.trans hact'
    | reduce hact' => exact nomatch hact.symm.trans hact'
    | discard _ ho' => exact ih ho'

def Lost (Q : Quiet h α) (action? : Nat → S → Option Action) (g : Grammar S) (A : Collection S) :
    List α → Option (ParseTree S α) × Bool → Prop
  | [], o => o = (none, false)
  | _ :: w, o => Outcome Q action? g A [0] [] w false o

lemma Lost.outcome {qs : List Nat} (hl : Lost Q action? g A w o) (hact : action? q (Q.ahead w) = none) :
    Outcome Q action? g A (q :: qs) ts w clean o := by
  cases w with
  | nil =>
    obtain rfl : o = (none, false) := hl
    exact .fail hact
  | cons a w => exact .discard hact hl

lemma Steady.complete_of_reduce (ht : Steady t g p A start) (hpr : pr ∈ g.productions) {s : S}
    (hact : t.action? q s = some (.reduce pr.number)) : pr.dotted pr.symbols.length ∈ A.itemsOf q := by
  obtain ⟨pr', hpr', hnum, hi⟩ := ht.serves.of_reduce hact
  obtain rfl := ht.plain.explored.numbered.eq_of_number (mem_append_right _ hpr') (mem_append_right _ hpr) hnum
  exact hi

lemma Outcome.lost (ht : Steady t g p A start) (hstart : start ∉ g.nullable)
    (ho : Outcome Q t.action? g A st ts w clean o) (he : Entered A st types)
    (hnot : ¬Awaits g p A (Q.ahead w) st) : Lost Q t.action? g A w o := by
  induction ho generalizing types with
  | shift hact _ _ =>
    obtain ⟨hgoto, hterm⟩ := ht.serves.of_shift hact
    obtain ⟨i, hi, hnext⟩ := ht.plain.explored.exists_expected hgoto
    exact absurd (.starts (.here hi hnext hterm)) hnot
  | reduce hact hpr hdrop hgoto _ ih =>
    have hi := ht.complete_of_reduce hpr hact
    obtain ⟨q', qs', hdrop', he', -⟩ := he.retreat ht.plain.explored hi
    obtain ⟨rfl, rfl⟩ := List.cons.inj (hdrop.symm.trans hdrop')
    exact ih (he'.push hgoto) fun hawaits => hnot (hawaits.of_reduced ht.plain hstart hpr hi hdrop hgoto)
  | accept hact => exact absurd (.accept (ht.serves.of_accept hact).2 rfl) hnot
  | fail _ => rfl
  | discard _ ho _ => exact ho

lemma Outcome.of_reduced (ht : Steady t g p A start) (hstart : start ∉ g.nullable) {q' r : Nat} {qs qs' : List Nat}
    (he : Entered A (q :: qs) types) (hpr : pr ∈ g.productions) (hi : pr.dotted pr.symbols.length ∈ A.itemsOf q)
    (hdrop : (q :: qs).drop pr.symbols.length = q' :: qs') (hgoto : A.goto? q' pr.name = some r)
    (hact : t.action? q (Q.ahead w) = none) {ts' : List (ParseTree S α)}
    (ho : Outcome Q t.action? g A (r :: q' :: qs') ts' w clean o) : Outcome Q t.action? g A (q :: qs) ts w clean o := by
  obtain ⟨_, _, hdrop', he', -, h0⟩ := he.retreat ht.plain.explored hi
  obtain ⟨rfl, rfl⟩ := List.cons.inj (hdrop.symm.trans hdrop')
  refine (ho.lost ht hstart (he'.push hgoto) ?_).outcome hact
  intro hawaits
  -- a token that is waited for follows the symbol of the reduction, which is then its action
  have hreach : A.reach? q' pr.symbols = some q := by
    have := he.reach? ht.plain.explored hi hdrop
    rwa [take_length] at this
  obtain ⟨a, ha, -⟩ := ht.serves.reduce hpr h0 hreach (hawaits.follows ht.plain (he'.push hgoto))
  rw [hact] at ha
  cases ha

end Outcome

def Carries (Q : Quiet h α) (tree : ParseTree S α) (s : StackSymbol S V) : Prop :=
  ∃ v, s.value = some v ∧ Denotes Q.Reads Q.Acts tree v

omit [DecidableEq S] in
lemma carries_node {pr : Production S} {ts : List (ParseTree S α)} {v : V} (hts : List.Forall₂ (Carries Q) ts ss)
    (hacts : Q.Acts pr.name ((ss.take pr.symbols.length).reverse.map fun s => s.value.getD h.nothing) v) :
    List.Forall₂ (Carries Q) (node pr.name (ts.take pr.symbols.length).reverse :: ts.drop pr.symbols.length)
      ({ type := pr.name, value := some v } :: ss.drop pr.symbols.length) := by
  have htake := forall₂_reverse_iff.mpr (forall₂_take pr.symbols.length hts)
  exact .cons ⟨v, rfl, .node (denotes_values htake) hacts⟩ (forall₂_drop _ hts)

def Ends (Q : Quiet h α) (action? : Nat → S → Option Action) (g : Grammar S) (A : Collection S) (st : List Nat)
    (ts : List (ParseTree S α)) (w : List α) (clean : Bool) (v : Option V) (c : Config S V σ) : Prop :=
  ∃ o, Outcome Q action? g A st ts w clean (o, Q.clean c.host) ∧ Option.Rel (Denotes Q.Reads Q.Acts) o v

def Conclusive (Q : Quiet h α) (t : Tables S) (g : Grammar S) (A : Collection S) (n : Nat) : Prop :=
  ∀ {c v c'}, run h t {} n c = .finished v c' →
    (∀ {ss w ts}, Normal Q A c ss w → List.Forall₂ (Carries Q) ts ss →
      Ends Q t.action? g A c.states ts w (Q.clean c.host) v c') ∧
    ∀ {ss w}, Panic Q t A c ss w → Ends Q t.action? g A [0] [] w false v c'

section Run

variable {n : Nat} {ts : List (ParseTree S α)} {token : StackSymbol S V}

variable (ht : Steady t g p A start)

include ht

lemma Normal.reduce_ends (hstart : start ∉ g.nullable) (hk : Conclusive Q t g A n)
    (hn : Normal Q A c ss w) (hts : List.Forall₂ (Carries Q) ts ss) {pr : Production S} (hpr : pr ∈ g.productions)
    (hi : pr.dotted pr.symbols.length ∈ A.itemsOf c.state)
    (hact : ∀ a, t.action? c.state (Q.ahead w) = some a → a = .reduce pr.number) :
    ∃ c₁, reduceBy h t {} pr.number c = .running c₁ ∧ ∀ {v c'}, run h t {} n c₁ = .finished v c' →
      Ends Q t.action? g A c.states ts w (Q.clean c.host) v c' := by
  obtain ⟨c₁, v₁, q, rest, r, hred, hdrop, -, hgoto, -, hacts, hn₁, hstates, hclean⟩ := hn.reduce ht hpr hi
  refine ⟨c₁, hred, ?_⟩
  intro v c' hrun
  obtain ⟨o, ho, hrel⟩ := (hk hrun).1 hn₁ (carries_node hts hacts)
  rw [hstates, hclean] at ho
  obtain ⟨qs, hqs⟩ := hn.exists_states
  rw [hqs] at hdrop ⊢
  refine ⟨o, ?_, hrel⟩
  cases ha : t.action? c.state (Q.ahead w) with
  | none => exact ho.of_reduced ht hstart (hqs ▸ hn.entered) hpr hi hdrop hgoto ha
  | some a =>
    obtain rfl := hact a ha
    exact .reduce ha hpr hdrop hgoto ho

lemma Normal.recover_ends (hk : Conclusive Q t g A n) (hn : Normal Q A c ss w)
    (hl : c.lookahead = some token) (hd : t.default? c.state = none) (hact : t.action? c.state (Q.ahead w) = none)
    (ts : List (ParseTree S α)) : (∃ c₁, Parser.recover h {} token c = .finished none c₁ ∧
      Ends Q t.action? g A c.states ts w (Q.clean c.host) none c₁) ∨
    ∃ c₁, Parser.recover h {} token c = .running c₁ ∧ ∀ {v c'}, run h t {} n c₁ = .finished v c' →
      Ends Q t.action? g A c.states ts w (Q.clean c.host) v c' := by
  obtain ⟨qs, hqs⟩ := hn.exists_states
  rw [hqs]
  rcases hn.recover ht hl hd with ⟨rfl, c₁, heq, -, hdirty⟩ | ⟨a, w', rfl, c₁, heq, hdirty, hcase⟩
  · refine .inl ⟨c₁, heq, none, ?_, .none⟩
    rw [hdirty]
    exact .fail hact
  · refine .inr ⟨c₁, heq, ?_⟩
    intro v c' hrun
    rcases hcase with ⟨-, hn₁⟩ | hp₁
    · obtain ⟨o, ho, hrel⟩ := (hk hrun).1 hn₁ .nil
      rw [hn₁.entered.eq_start, hdirty] at ho
      exact ⟨o, .discard hact ho, hrel⟩
    · obtain ⟨o, ho, hrel⟩ := (hk hrun).2 hp₁
      exact ⟨o, .discard hact ho, hrel⟩

lemma Normal.shift_ends (hk : Conclusive Q t g A n) (hn : Normal Q A c ss w)
    (hts : List.Forall₂ (Carries Q) ts ss) (hl : c.lookahead = some token) {r : Nat}
    (hact : t.action? c.state (Q.ahead w) = some (.shift r)) :
    ∃ c₁, Parser.shift (E := E) {} token r c = .running c₁ ∧ ∀ {v c'}, run h t {} n c₁ = .finished v c' →
      Ends Q t.action? g A c.states ts w (Q.clean c.host) v c' := by
  obtain ⟨qs, hqs⟩ := hn.exists_states
  obtain ⟨hgoto, -⟩ := ht.serves.of_shift hact
  cases w with
  | nil =>
    rw [show Q.ahead [] = endMark from rfl, ht.ending] at hgoto
    cases hgoto
  | cons a w =>
    obtain ⟨c₁, v₁, hshift, -, hvalue, hreads, hn₁, hstates, hclean⟩ := hn.shift hl hgoto
    refine ⟨c₁, hshift, ?_⟩
    intro v c' hrun
    obtain ⟨o, ho, hrel⟩ := (hk hrun).1 hn₁ (.cons ⟨v₁, hvalue, .leaf hreads⟩ hts)
    rw [hstates, hqs, hclean] at ho
    rw [hqs]
    exact ⟨o, .shift hact ho, hrel⟩

lemma Normal.accept_ends (hn : Normal Q A c ss w) (hts : List.Forall₂ (Carries Q) ts ss)
    (hl : c.lookahead = some token) (hact : t.action? c.state token.type = some .accept) :
    ∃ v, Parser.accept h {} c = .finished v c ∧ Ends Q t.action? g A c.states ts w (Q.clean c.host) v c := by
  obtain ⟨qs, hqs⟩ := hn.exists_states
  obtain ⟨hend, -⟩ := ht.serves.of_accept hact
  obtain ⟨rfl, -, top, rfl, -, haccept⟩ := hn.accept ht hl hact
  refine ⟨top.value, haccept, ?_⟩
  cases hts with
  | @cons tree _ _ _ htree hts =>
    cases hts
    obtain ⟨v, hvalue, hden⟩ := htree
    rw [hqs, hvalue]
    rw [hend] at hact
    exact ⟨some tree, .accept hact, .some hden⟩

lemma Conclusive.succ (hstart : start ∉ g.nullable) (hk : Conclusive Q t g A n) : Conclusive Q t g A (n + 1) := by
  intro c v c' hrun
  rw [run] at hrun
  constructor
  · intro ss w ts hn hts
    rcases hn.step_cases t with ⟨m, hd, heq⟩ | ⟨hd, token, c₁, heq, htype, hn₁, hl, hstates, hstate, hclean⟩
    · obtain ⟨⟨s, hs⟩, hall⟩ := ht.serves.of_default hd
      obtain ⟨pr, hpr, rfl, hi⟩ := ht.serves.of_reduce hs
      obtain ⟨c₁, hred, hends⟩ := hn.reduce_ends ht hstart hk hts hpr hi fun _ => hall
      rw [heq, hred] at hrun
      exact hends hrun
    · rw [heq, act] at hrun
      rw [← hstates, ← hclean]
      rw [← hstate] at hd
      cases hact : t.action? c₁.state token.type with
      | none =>
        rw [hact] at hrun
        rcases hn₁.recover_ends ht hk hl hd (htype ▸ hact) ts with ⟨c₂, heq₂, hends⟩ | ⟨c₂, heq₂, hends⟩
        · rw [heq₂] at hrun
          injection hrun with hv hc
          exact hv ▸ hc ▸ hends
        · rw [heq₂] at hrun
          exact hends hrun
      | some a =>
        rw [hact] at hrun
        cases a with
        | shift r =>
          obtain ⟨c₂, heq₂, hends⟩ := hn₁.shift_ends ht hk hts hl (htype ▸ hact)
          dsimp only at hrun
          rw [heq₂] at hrun
          exact hends hrun
        | reduce m =>
          obtain ⟨pr, hpr, rfl, hi⟩ := ht.serves.of_reduce hact
          obtain ⟨c₂, hred, hends⟩ := hn₁.reduce_ends ht hstart hk hts hpr hi fun a ha => by
            rw [← htype, hact] at ha
            exact (Option.some.inj ha).symm
          dsimp only at hrun
          rw [hred] at hrun
          exact hends hrun
        | accept =>
          obtain ⟨v₂, haccept, hends⟩ := hn₁.accept_ends ht hts hl hact
          dsimp only at hrun
          rw [haccept] at hrun
          injection hrun with hv hc
          exact hv ▸ hc ▸ hends
  · intro ss w hp
    obtain ⟨c₁, heq, hdirty, hcase⟩ := hp.step ht
    rw [heq] at hrun
    rcases hcase with ⟨-, hn₁⟩ | ⟨top, rest, -, hp₁⟩
    · obtain ⟨o, ho, hrel⟩ := (hk hrun).1 hn₁ .nil
      rw [hn₁.entered.eq_start, hdirty] at ho
      exact ⟨o, ho, hrel⟩
    · exact (hk hrun).2 hp₁

theorem run_outcome (hstart : start ∉ g.nullable) (n : Nat) : Conclusive Q t g A n := by
  induction n with
  | zero =>
    intro c v c' hrun
    cases hrun
  | succ n ih => exact ih.succ ht hstart

end Run

section Defaults

lemma Steady.withoutDefaults (ht : Steady t g p A start) : Steady t.withoutDefaults g p A start where
  plain := ht.plain
  serves := { ht.serves with of_default := fun hd => nomatch hd }
  marks := ht.marks
  alien := ht.alien
  ending := ht.ending
  inner := ht.inner

/-- Parsing with tables that differ in the reductions before the next token has one outcome: there is an error for both
or for none, and what they return are values of one tree. -/
theorem parse_defaults (ht : Steady t g p A start) (hstart : start ∉ g.nullable) {host : σ} {input : List α}
    (hf : Q.Feed host (some input)) {n : Nat} {settled : Bool} {v v' : Option V} {c c' : Config S V σ}
    (hparse : parse h t {} n settled host = .finished v c)
    (hparse' : parse h t.withoutDefaults {} n settled host = .finished v' c') : Q.clean c.host = Q.clean c'.host ∧
      ∃ o, Option.Rel (Denotes Q.Reads Q.Acts) o v ∧ Option.Rel (Denotes Q.Reads Q.Acts) o v' := by
  obtain ⟨o, ho, hrel⟩ := (run_outcome ht hstart n hparse).1 (normal_start hf) .nil
  obtain ⟨o', ho', hrel'⟩ := (run_outcome ht.withoutDefaults hstart n hparse').1 (normal_start hf) .nil
  obtain ⟨rfl, hclean⟩ := Prod.mk.inj (ho.unique ht.plain.explored.numbered ho')
  exact ⟨hclean, o, hrel, hrel'⟩

end Defaults

end LispKit.Parser
