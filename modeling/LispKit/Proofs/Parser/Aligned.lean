import LispKit.Proofs.Parser.Move
import LispKit.Proofs.Parser.Sound

/-! The two stacks of a parser: they belong together as long as no rule of an empty production asks for recovery. -/

namespace LispKit.Parser

open Vocabulary List

variable {S V σ E : Type} [DecidableEq S] [Vocabulary S] {h : Host S V σ E} {t : Tables S} {m : Mode}
variable {c c' : Config S V σ} {ahead : StackSymbol S V} {p : Production S}

structure Host.KeepsTypes (h : Host S V σ E) : Prop where
  type : ∀ {r s s' symbol recovered}, h.apply r s = (.done symbol recovered, s') → symbol.type = r.symbol.type

structure Host.NeverRestarts (h : Host S V σ E) : Prop where
  restarted : ∀ {f offending s reply s'}, h.onError = some f → f offending s = (.ok reply, s') → reply.restarted = false

def Tables.Leads (t : Tables S) (q : Nat) (s : S) (r : Nat) : Prop :=
  t.action? q s = some (.shift r) ∨ t.goto? q s = some r

/-- The stacks belong together. The topmost state and the topmost symbol have index zero. -/
structure Aligned (t : Tables S) (c : Config S V σ) : Prop where
  length : c.states.length = c.symbols.length
  nonempty : 1 ≤ c.states.length
  bottomState : c.states.getLast? = some 0
  bottomSymbol : c.symbols.getLast? = some .atEnd
  state : c.states.head? = some c.state
  leads : ∀ {i q r s}, c.states[i]? = some r → c.symbols[i]? = some s → c.states[i + 1]? = some q → t.Leads q s.type r

inductive Linked (t : Tables S) : List Nat → List (StackSymbol S V) → Prop
  | bottom : Linked t [0] [.atEnd]
  | push {q r : Nat} {qs : List Nat} {s : StackSymbol S V} {ss : List (StackSymbol S V)} : Linked t (q :: qs) ss →
      t.Leads q s.type r → Linked t (r :: q :: qs) (s :: ss)

section Linked

variable {qs : List Nat} {ss rest : List (StackSymbol S V)}

lemma Linked.length_eq (h : Linked t qs ss) : qs.length = ss.length := by
  induction h with
  | bottom => rfl
  | push _ _ ih => simpa using ih

lemma Linked.getLast? (h : Linked t qs ss) : qs.getLast? = some 0 ∧ ss.getLast? = some .atEnd := by
  induction h with
  | bottom => exact ⟨rfl, rfl⟩
  | @push q r qs s ss h _ ih =>
    refine ⟨by rw [getLast?_cons_cons, ih.1], ?_⟩
    cases ss with
    | nil => cases h
    | cons s' ss => rw [getLast?_cons_cons, ih.2]

lemma Linked.leads (h : Linked t qs ss) {i q r : Nat} {s : StackSymbol S V} (hr : qs[i]? = some r) (hs : ss[i]? = some s)
    (hq : qs[i + 1]? = some q) : t.Leads q s.type r := by
  induction h generalizing i with
  | bottom => cases hq
  | push _ hleads ih =>
    cases i with
    | zero =>
      obtain rfl := Option.some.inj hr
      obtain rfl := Option.some.inj hs
      obtain rfl := Option.some.inj hq
      exact hleads
    | succ i => exact ih hr hs hq

lemma linked_of_leads (hlength : qs.length = ss.length) (hstate : qs.getLast? = some 0)
    (hsymbol : ss.getLast? = some .atEnd)
    (hleads : ∀ {i q r s}, qs[i]? = some r → ss[i]? = some s → qs[i + 1]? = some q → t.Leads q s.type r) :
    Linked t qs ss := by
  induction qs generalizing ss with
  | nil => cases hstate
  | cons r qs ih =>
    cases ss with
    | nil => cases hsymbol
    | cons s ss =>
      cases qs with
      | nil =>
        obtain rfl : ss = [] := by
          rw [length_cons, length_cons, Nat.add_right_cancel_iff] at hlength
          exact length_eq_zero_iff.mp hlength.symm
        obtain rfl := Option.some.inj hstate
        obtain rfl := Option.some.inj hsymbol
        exact .bottom
      | cons q qs =>
        cases ss with
        | nil => cases hlength
        | cons s' ss =>
          rw [getLast?_cons_cons] at hstate hsymbol
          have hrest : Linked t (q :: qs) (s' :: ss) := by
            apply ih (by simpa using hlength) hstate hsymbol
            intro i q' r' x hr hx hq
            exact hleads (i := i + 1) hr hx hq
          exact .push hrest (hleads (i := 0) rfl rfl rfl)

lemma aligned_iff : Aligned t c ↔ c.states.head? = some c.state ∧ Linked t c.states c.symbols := by
  constructor
  · intro hc
    exact ⟨hc.state, linked_of_leads hc.length hc.bottomState hc.bottomSymbol hc.leads⟩
  · rintro ⟨hstate, hlinked⟩
    have hnonempty : c.states ≠ [] := by
      intro hnil
      rw [hnil] at hstate
      cases hstate
    exact ⟨hlinked.length_eq, length_pos_iff.mpr hnonempty, hlinked.getLast?.1, hlinked.getLast?.2, hstate,
      hlinked.leads⟩

lemma Linked.tail {q q' : Nat} (h : Linked t (q :: q' :: qs) ss) : Linked t (q' :: qs) ss.tail := by
  cases h with
  | push h _ => exact h

lemma Linked.drop (h : Linked t qs ss) {n top : Nat} {below : List Nat} (hdrop : qs.drop n = top :: below) :
    Linked t (top :: below) (ss.drop n) := by
  induction n generalizing qs ss with
  | zero =>
    rw [drop_zero] at hdrop
    rwa [hdrop] at h
  | succ n ih =>
    cases h with
    | bottom => simp at hdrop
    | push h _ => exact ih h hdrop

lemma Linked.replace (hmarks : (endMark : S) ≠ errorMark) {top top' : StackSymbol S V} (h : Linked t qs (top :: rest))
    (htop : top.type = errorMark) (htop' : top'.type = top.type) : Linked t qs (top' :: rest) := by
  cases h with
  | bottom => exact absurd htop hmarks
  | push h hleads => exact .push h (htop' ▸ hleads)

end Linked

def raisedEmpty (record : Record S V E) : Bool :=
  record.any fun call => call.2.isRaised && call.1.production.symbols.isEmpty

omit [DecidableEq S] [Vocabulary S] in
lemma raisedEmpty_append {record : Record S V E} {call : Reduction S V × RuleReply S V E} :
    raisedEmpty (record ++ [call]) = (raisedEmpty record || (call.2.isRaised && call.1.production.symbols.isEmpty)) := by
  simp [raisedEmpty]

namespace Aligned

lemma of_stacks {σ' : Type} {c' : Config S V σ'} (hc : Aligned t c) (hstates : c'.states = c.states)
    (hsymbols : c'.symbols = c.symbols) (hstate : c'.state = c.state) : Aligned t c' := by
  rw [aligned_iff, hstates, hsymbols, hstate]
  exact aligned_iff.mp hc

lemma log (hc : Aligned t c) (log : String) : Aligned t { c with log := log } :=
  hc.of_stacks rfl rfl rfl

lemma fetch (hc : Aligned t c) (hfetch : fetch h c = (.ok ahead, c')) : Aligned t c' := by
  obtain ⟨hstates, hsymbols, hstate, -⟩ := fetch_stacks hfetch
  exact hc.of_stacks hstates hsymbols hstate

lemma exists_states (hc : Aligned t c) : ∃ qs, c.states = c.state :: qs := by
  have hstate := hc.state
  cases hstates : c.states with
  | nil => simp [hstates] at hstate
  | cons q qs =>
    rw [hstates] at hstate
    obtain rfl := Option.some.inj hstate
    exact ⟨qs, rfl⟩

lemma push (hc : Aligned t c) {s : StackSymbol S V} {r : Nat} (hleads : t.Leads c.state s.type r) :
    Linked t (r :: c.states) (s :: c.symbols) := by
  obtain ⟨qs, hqs⟩ := hc.exists_states
  have hlinked := (aligned_iff.mp hc).2
  rw [hqs] at hlinked ⊢
  exact .push hlinked hleads

lemma take_tail_append_drop {α : Type} (l : List α) {n : Nat} (hn : n ≠ 0) : (l.take n).tail ++ l.drop n = l.tail := by
  obtain ⟨n, rfl⟩ := Nat.exists_eq_add_one_of_ne_zero hn
  cases l with
  | nil => rfl
  | cons a l => simp

lemma reduces {c c' : Config S V (σ × Record S V E)} (hkeep : h.KeepsTypes) (hc : Aligned t c)
    (hreduces : Reduces h.recording t m p c c') :
    (Aligned t c' ∧ raisedEmpty c'.host.2 = raisedEmpty c.host.2) ∨ ¬ Aligned t c' ∧ raisedEmpty c'.host.2 = true := by
  have hlinked := (aligned_iff.mp hc).2
  cases hreduces with
  | @done s s' recovered host top target below log hs happly hstates hgoto =>
    left
    have hkept : s'.type = p.name := (hkeep.type (Prod.ext (Prod.mk.inj happly).1 rfl)).trans (of_newSymbol hs).1
    refine ⟨aligned_iff.mpr ⟨rfl, .push (hlinked.drop hstates) (.inr (hkept ▸ hgoto))⟩, ?_⟩
    dsimp only
    rw [Host.of_recording_apply happly, raisedEmpty_append]
    simp [RuleReply.isRaised]
  | @raised s host top state rest log hs happly hstates =>
    rw [hstates] at hlinked
    by_cases hempty : p.symbols = []
    · right
      constructor
      · intro hc'
        have hlength := hc'.length
        have hbefore := hlinked.length_eq
        simp only [hempty, length_nil, take_zero, drop_zero, tail_nil, nil_append,
          length_cons] at hlength hbefore
        omega
      · dsimp only
        rw [Host.of_recording_apply happly, raisedEmpty_append]
        simp [RuleReply.isRaised, hempty]
    · left
      refine ⟨aligned_iff.mpr ⟨rfl, ?_⟩, ?_⟩
      · dsimp only
        rw [take_tail_append_drop _ (by simpa using hempty)]
        exact hlinked.tail
      · dsimp only
        rw [Host.of_recording_apply happly, raisedEmpty_append]
        simp [hempty]

lemma panics (hmarks : (endMark : S) ≠ errorMark) (hc : Aligned t c) (hpanics : Panics h ahead c c') : Aligned t c' := by
  obtain ⟨hstate, hlinked⟩ := aligned_iff.mp hc
  cases hpanics with
  | wipe hlength _ =>
    refine aligned_iff.mpr ⟨?_, hlinked⟩
    dsimp only
    generalize c.symbols = ss at hlinked
    generalize c.states = qs at hlinked hlength
    cases hlinked with
    | bottom => rfl
    | push => simp at hlength
  | skip _ _ _ hsymbols htop htop' =>
    rw [hsymbols] at hlinked
    exact aligned_iff.mpr ⟨hstate, hlinked.replace hmarks htop htop'⟩
  | mark => exact aligned_iff.mpr ⟨hstate, hlinked⟩
  | pop _ _ hsymbols hstates =>
    rw [hsymbols, hstates] at hlinked
    exact aligned_iff.mpr ⟨rfl, hlinked.tail⟩

lemma recovers (hmarks : (endMark : S) ≠ errorMark) (hrestart : h.NeverRestarts) (hc : Aligned t c)
    (hrecovers : Recovers h ahead c c') : Aligned t c' := by
  have halarmed : ∀ {reply host settled log}, Heard h ahead c.host reply host →
      Aligned t (c.alarmed reply host settled log) := by
    intro reply host settled log hheard
    have hrestarted : reply.restarted = false := by
      cases hheard with
      | unasked => rfl
      | asked hf hreply => exact hrestart.restarted hf hreply
    rw [Config.alarmed, hrestarted]
    exact hc.of_stacks rfl rfl rfl
  cases hrecovers with
  | panic hheard _ hpanics => exact (halarmed hheard).panics hmarks hpanics
  | @settled reply host log hheard _ =>
    have hc' : Aligned t (c.alarmed reply host true log) := halarmed hheard
    exact hc'.of_stacks rfl rfl rfl

end Aligned

omit [DecidableEq S] in
lemma Panics.host_eq (hpanics : Panics h ahead c c') : c'.host = c.host := by
  cases hpanics <;> rfl

lemma Recovers.record_eq {c c' : Config S V (σ × Record S V E)} (hrecovers : Recovers h.recording ahead c c') :
    c'.host.2 = c.host.2 := by
  have hheard : ∀ {reply host}, Heard h.recording ahead c.host reply host → host.2 = c.host.2 := by
    intro reply host hheard
    cases hheard with
    | unasked => rfl
    | asked hf hreply =>
      obtain ⟨f, -, rfl⟩ := Option.map_eq_some_iff.mp hf
      rw [← (Prod.mk.inj hreply).2]
  cases hrecovers with
  | panic h₁ _ hpanics =>
    rw [hpanics.host_eq]
    exact hheard h₁
  | settled h₁ _ => exact hheard h₁

omit [DecidableEq S] in
lemma fetch_record {c c' : Config S V (σ × Record S V E)} (hfetch : fetch h.recording c = (.ok ahead, c')) :
    c'.host.2 = c.host.2 := by
  rcases of_fetch hfetch with ⟨-, rfl⟩ | ⟨-, s, rest, -, -, rfl⟩ | ⟨-, -, s, host, hnext, -, rfl⟩
  · rfl
  · rfl
  · dsimp only
    rw [← (Prod.mk.inj hnext).2]

lemma Reduces.record_eq {c c' : Config S V (σ × Record S V E)} (hreduces : Reduces h.recording t m p c c') :
    ∃ call, c'.host.2 = c.host.2 ++ [call] ∧ call.1.production = p := by
  cases hreduces with
  | done _ happly => exact ⟨_, by rw [Host.of_recording_apply happly], rfl⟩
  | raised _ happly => exact ⟨_, by rw [Host.of_recording_apply happly], rfl⟩

lemma Moves.record_cases {c c' : Config S V (σ × Record S V E)} (hmoves : Moves h.recording t m c c') :
    c'.host.2 = c.host.2 ∨ ∃ call, c'.host.2 = c.host.2 ++ [call] ∧ call.1.production ∈ t.productions := by
  cases hmoves with
  | default _ hp hreduces =>
    obtain ⟨call, hrecord, rfl⟩ := hreduces.record_eq
    exact .inr ⟨call, hrecord, mem_of_getElem? hp⟩
  | shift _ _ hfetch _ =>
    have hrecord := fetch_record hfetch
    exact .inl hrecord
  | reduce _ hfetch _ hp hreduces =>
    obtain ⟨call, hrecord, rfl⟩ := hreduces.record_eq
    rw [← fetch_record hfetch]
    exact .inr ⟨call, hrecord, mem_of_getElem? hp⟩
  | recover _ hfetch _ hrecovers =>
    have hrecord := fetch_record hfetch
    exact .inl (hrecovers.record_eq.trans hrecord)

lemma Aligned.moves {c c' : Config S V (σ × Record S V E)} (hmarks : (endMark : S) ≠ errorMark) (hkeep : h.KeepsTypes)
    (hrestart : h.NeverRestarts) (hc : Aligned t c) (hmoves : Moves h.recording t m c c') :
    (Aligned t c' ∧ raisedEmpty c'.host.2 = raisedEmpty c.host.2) ∨ ¬ Aligned t c' ∧ raisedEmpty c'.host.2 = true := by
  have hrestart' : h.recording.NeverRestarts := by
    constructor
    intro f offending s reply s' hf hreply
    obtain ⟨f, hf', rfl⟩ := Option.map_eq_some_iff.mp hf
    exact hrestart.restarted hf' (Prod.ext (Prod.mk.inj hreply).1 rfl)
  cases hmoves with
  | @default n p log c' hd hp hreduces =>
    have hcases := (hc.log log).reduces hkeep hreduces
    exact hcases
  | shift log hd hfetch ha =>
    obtain ⟨hstates, hsymbols, hstate, -⟩ := fetch_stacks hfetch
    left
    refine ⟨aligned_iff.mpr ⟨rfl, (hc.fetch hfetch).push (.inl (hstate ▸ ha))⟩, ?_⟩
    dsimp only
    rw [fetch_record hfetch]
  | @reduce ahead c₁ c' n p log hd hfetch ha hp hreduces =>
    rw [← fetch_record hfetch]
    have hcases := ((hc.fetch hfetch).log log).reduces hkeep hreduces
    exact hcases
  | recover hd hfetch ha hrecovers =>
    left
    refine ⟨((hc.fetch hfetch).log _).recovers hmarks hrestart' hrecovers, ?_⟩
    rw [hrecovers.record_eq]
    dsimp only
    rw [fetch_record hfetch]

lemma aligned_start (host : σ) (settled : Bool) (log : String) :
    Aligned t ({ Config.start host settled with log := log } : Config S V σ) :=
  aligned_iff.mpr ⟨rfl, .bottom⟩

section Parse

variable {settled : Bool} {host : σ} {n : Nat}

lemma production_mem {c : Config S V (σ × Record S V E)}
    (hparse : parse h.recording t m n settled (host, []) = .running c) :
    ∀ call ∈ c.host.2, call.1.production ∈ t.productions := by
  refine parse_invariant (P := fun c => ∀ call ∈ c.host.2, call.1.production ∈ t.productions) ?_ ?_ hparse
  · exact fun log => forall_mem_nil _
  · intro n c c' _ _ hc hmoves
    rcases hmoves.record_cases with hsame | ⟨call, happend, hcall⟩
    · rw [hsame]
      exact hc
    · rw [happend]
      exact forall_mem_append.mpr ⟨hc, forall_mem_singleton.mpr hcall⟩

lemma aligned_of_not_raisedEmpty (hmarks : (endMark : S) ≠ errorMark) (hkeep : h.KeepsTypes)
    (hrestart : h.NeverRestarts)
    (hraised : ∀ n c, parse h.recording t m n settled (host, []) = .running c → raisedEmpty c.host.2 = false)
    {c : Config S V (σ × Record S V E)} (hparse : parse h.recording t m n settled (host, []) = .running c) :
    Aligned t c := by
  refine parse_invariant (fun log => aligned_start _ _ log) ?_ hparse
  intro n c c' _ hparse' hc hmoves
  rcases hc.moves hmarks hkeep hrestart hmoves with ⟨hc', -⟩ | ⟨-, hempty⟩
  · exact hc'
  · rw [hraised _ c' hparse'] at hempty
    cases hempty

lemma not_raisedEmpty_of_aligned (hmarks : (endMark : S) ≠ errorMark) (hkeep : h.KeepsTypes)
    (hrestart : h.NeverRestarts)
    (haligned : ∀ n c, parse h.recording t m n settled (host, []) = .running c → Aligned t c)
    {c : Config S V (σ × Record S V E)} (hparse : parse h.recording t m n settled (host, []) = .running c) :
    raisedEmpty c.host.2 = false := by
  refine parse_invariant (P := fun c => raisedEmpty c.host.2 = false) (fun log => rfl) ?_ hparse
  intro n c c' hparse hparse' hraised hmoves
  rcases (haligned _ c hparse).moves hmarks hkeep hrestart hmoves with ⟨-, hsame⟩ | ⟨hnot, -⟩
  · exact hsame.trans hraised
  · exact absurd (haligned _ c' hparse') hnot

lemma exists_recorded {c : Config S V σ} (hparse : parse h t m n settled host = .running c) :
    ∃ c', parse h.recording t m n settled (host, []) = .running c' ∧ c'.unrecorded = c := by
  rw [← parse_unrecorded] at hparse
  cases hrecorded : parse h.recording t m n settled (host, []) with
  | running c' =>
    rw [hrecorded] at hparse
    exact ⟨c', rfl, Progress.running.inj hparse⟩
  | finished v c' =>
    rw [hrecorded] at hparse
    cases hparse
  | failed e c' =>
    rw [hrecorded] at hparse
    cases hparse

lemma parse_of_recorded {c : Config S V (σ × Record S V E)}
    (hparse : parse h.recording t m n settled (host, []) = .running c) :
    parse h t m n settled host = .running c.unrecorded := by
  rw [← parse_unrecorded, hparse]
  rfl

end Parse

/-- At every step of a parser that goes on, both stacks have the same length, at their bottoms are the first state and the
end of the input, the current state is on top, and each state is reached from the one below by the symbol beside it:
precisely as long as no rule of an empty production asks for recovery. -/
theorem stacks_aligned_iff {h : Host String V σ E} (hkeep : h.KeepsTypes) (hrestart : h.NeverRestarts) (t : Tables String)
    (m : Mode) (settled : Bool) (host : σ) :
    (∀ n c, parse h t m n settled host = .running c → Aligned t c) ↔
      ∀ n c, parse h.recording t m n settled (host, []) = .running c → raisedEmpty c.host.2 = false := by
  have hmarks : (endMark : String) ≠ errorMark := by decide
  constructor
  · intro haligned n c hparse
    refine not_raisedEmpty_of_aligned hmarks hkeep hrestart ?_ hparse
    intro n c hparse
    exact (haligned n _ (parse_of_recorded hparse)).of_stacks rfl rfl rfl
  · intro hraised n c hparse
    obtain ⟨c', hparse', rfl⟩ := exists_recorded hparse
    exact (aligned_of_not_raisedEmpty hmarks hkeep hrestart hraised hparse').of_stacks rfl rfl rfl

section Samples

lemma type_apply {result : RuleResult} {r : Reduction String Datum} {s : DatumSymbol}
    (happly : RuleAction.apply result r = .ok s) : s.type = r.symbol.type := by
  have hmap : ∀ {x : Except Fault Datum} {f : Datum → DatumSymbol}, x.map f = .ok s →
      (∀ d, (f d).type = r.symbol.type) → s.type = r.symbol.type := by
    intro x f hs hf
    cases x with
    | error e => cases hs
    | ok d =>
      obtain rfl := Except.ok.inj hs
      exact hf d
  unfold RuleAction.apply at happly
  dsimp only at happly
  split at happly
  · obtain rfl := Except.ok.inj happly
    rfl
  · exact hmap happly fun d => rfl
  · exact hmap happly fun d => rfl
  · split at happly
    · cases happly
    · exact hmap happly fun d => rfl
  · rcases hvalues : (r.arguments.take 2).mapM StackSymbol.getValue with e | values
    · rw [hvalues] at happly
      cases happly
    · rw [hvalues] at happly
      obtain rfl := Except.ok.inj happly
      rfl
  · rcases hvalues : r.arguments.mapM StackSymbol.getValue with e | values
    · rw [hvalues] at happly
      cases happly
    · rw [hvalues] at happly
      obtain rfl := Except.ok.inj happly
      rfl
  · exact hmap happly fun d => rfl

lemma keepsTypes_behaviourHost (ds : Declarations Behaviour) : (behaviourHost ds).KeepsTypes := by
  constructor
  intro r s s' symbol recovered happly
  dsimp only [behaviourHost] at happly
  split at happly
  · unfold RuleAction.run at happly
    split at happly
    · cases happly
    · cases happly
    · dsimp only at happly
      split at happly
      · cases happly
      · rename_i hs
        obtain ⟨hreply, -⟩ := Prod.mk.inj happly
        obtain ⟨rfl, -⟩ := RuleReply.done.inj hreply
        exact type_apply hs
  · cases happly

omit [DecidableEq S] [Vocabulary S] in
lemma neverRestarts_of_none (hnone : h.onError = none) : h.NeverRestarts := by
  constructor
  intro f offending s reply s' hf
  rw [hnone] at hf
  cases hf

def unfilled : Declarations Behaviour where
  file := "unfilled"
  attributes := [("tokens", .value (.list [.text "Q", .text "A", .text "B", .text "E"])),
    ("p_s", .routine ⟨"p_s", some "s : Q x", 1, 1, false, .rule {}⟩),
    ("p_x", .routine ⟨"p_x", some "x : A filler B\n | error B", 2, 1, false, .rule {}⟩),
    ("p_filler", .routine ⟨"p_filler", some "filler : E", 3, 1, false, .rule {}⟩),
    ("p_none", .routine ⟨"p_none", some "filler :", 4, 1, false, .rule { raises := true }⟩)]
  source := none

def refused : Declarations Behaviour where
  file := "refused"
  attributes := [("tokens", .value (.list [.text "Q", .text "A", .text "B"])),
    ("p_s", .routine ⟨"p_s", some "s : Q x", 1, 1, false, .rule {}⟩),
    ("p_x", .routine ⟨"p_x", some "x : A B", 2, 1, false, .rule { raises := true }⟩),
    ("p_y", .routine ⟨"p_y", some "x : error B", 3, 1, false, .rule {}⟩)]
  source := none

def pairTokens : List DatumSymbol :=
  [numbered "Q" 1, numbered "A" 2, numbered "B" 3, numbered "B" 4]

def unfilledParser : Built :=
  (Parser.build unfilled {}).1.toOption.get (by decide +kernel)

def refusedParser : Built :=
  (Parser.build refused {}).1.toOption.get (by decide +kernel)

def Progress.isRunningWith (f : Config S V σ → Bool) : Progress S V σ E → Bool
  | .running c => f c
  | _ => false

omit [DecidableEq S] [Vocabulary S] in
lemma Progress.exists_running {f : Config S V σ → Bool} {r : Progress S V σ E} (hr : r.isRunningWith f = true) :
    ∃ c, r = .running c ∧ f c = true := by
  cases r with
  | running c => exact ⟨c, rfl, hr⟩
  | finished v c => cases hr
  | failed e c => cases hr

end Samples

theorem stacks_aligned_refused : ∃ (b : Built) (logs : Logs), Parser.build refused {} = (.ok b, logs) ∧
    (behaviourHost refused).KeepsTypes ∧ (behaviourHost refused).NeverRestarts ∧
    (∃ n c, parse (behaviourHost refused).recording b.tables {} n true ({ rest := pairTokens }, []) = .running c ∧
      (c.host.2.any fun call => call.2.isRaised) = true) ∧
    ∀ n c, parse (behaviourHost refused) b.tables {} n true { rest := pairTokens } = .running c → Aligned b.tables c := by
  have hkeep := keepsTypes_behaviourHost refused
  have hrestart : (behaviourHost refused).NeverRestarts := neverRestarts_of_none rfl
  have hraised : (parse (behaviourHost refused).recording refusedParser.tables {} 4
      true ({ rest := pairTokens }, [])).isRunningWith (fun c => c.host.2.any fun call => call.2.isRaised) = true := by
    decide +kernel
  have hnonempty : ∀ pr ∈ refusedParser.tables.productions,
      pr.symbols.isEmpty = false := by
    decide +kernel
  refine ⟨refusedParser, _, eq_built _, hkeep, hrestart, ⟨4, Progress.exists_running hraised⟩,
    (stacks_aligned_iff hkeep hrestart _ _ _ _).mpr ?_⟩
  intro n c hparse
  rw [raisedEmpty, any_eq_false]
  intro call hcall
  simp [hnonempty _ (production_mem hparse call hcall)]

/-- After an empty production was refused there is one more symbol than there are states. -/
theorem stacks_misaligned : ∃ (b : Built) (logs : Logs) (c : Config String Datum TokenFeed),
    Parser.build unfilled {} = (.ok b, logs) ∧ (behaviourHost unfilled).KeepsTypes ∧
    (behaviourHost unfilled).NeverRestarts ∧
    parse (behaviourHost unfilled) b.tables {} 3 true { rest := pairTokens } = .running c ∧ ¬ Aligned b.tables c := by
  have hlengths : (parse (behaviourHost unfilled) unfilledParser.tables {} 3 true
      { rest := pairTokens }).isRunningWith (fun c => c.states.length + 1 == c.symbols.length) = true := by
    decide +kernel
  obtain ⟨c, hparse, hlength⟩ := Progress.exists_running hlengths
  refine ⟨unfilledParser, _, c, eq_built _, keepsTypes_behaviourHost unfilled, neverRestarts_of_none rfl, hparse, ?_⟩
  intro hc
  have := hc.length
  have := beq_iff_eq.mp hlength
  omega

end LispKit.Parser
