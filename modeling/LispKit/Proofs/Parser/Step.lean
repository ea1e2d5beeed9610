import LispKit.Proofs.Parser.Tables

/-! The steps of a parser whose surroundings never fail: where a shift, a reduction or an error leads. -/

namespace LispKit.Parser

open Vocabulary Collection List

variable {S V σ E : Type} [DecidableEq S] [Vocabulary S]

structure Quiet (h : Host S V σ E) (α : Type) where
  type : α → S
  Feed : σ → Option (List α) → Prop
  clean : σ → Bool
  Reads : α → V → Prop
  Acts : S → List V → V → Prop
  plain : ∀ a, type a ≠ endMark ∧ type a ≠ errorMark
  next : ∀ {s a w}, Feed s (some (a :: w)) → ∃ token v s', h.nextToken s = (.ok (some token), s') ∧
    token.type = type a ∧ token.value = some v ∧ Reads a v ∧ Feed s' (some w) ∧ clean s' = clean s
  done : ∀ {s}, Feed s (some []) → ∃ s', h.nextToken s = (.ok none, s') ∧ Feed s' none ∧ clean s' = clean s
  rule : ∀ {s f} (r : Reduction S V), Feed s f → ∃ v s', h.apply r s = (.done { r.symbol with value := some v } false, s') ∧
    Acts r.production.name (r.arguments.map fun a => a.value.getD h.nothing) v ∧ Feed s' f ∧ clean s' = clean s
  complain : ∃ react, h.onError = some react ∧ ∀ {offending s f}, Feed s f →
    ∃ s', react offending s = (.ok {}, s') ∧ Feed s' f ∧ clean s' = false

variable {h : Host S V σ E} {α : Type} (Q : Quiet h α)

def Quiet.ahead (Q : Quiet h α) : List α → S
  | [] => endMark
  | a :: _ => Q.type a

inductive Input (Q : Quiet h α) (c : Config S V σ) : List α → Prop
  | unread {w : List α} : c.lookahead = none → c.pushback = [] → Q.Feed c.host (some w) → Input Q c w
  | token {a : α} {w : List α} {token : StackSymbol S V} {v : V} : c.lookahead = some token → c.pushback = [] →
      token.type = Q.type a → token.value = some v → Q.Reads a v → Q.Feed c.host (some w) → Input Q c (a :: w)
  | atEnd {token : StackSymbol S V} : c.lookahead = some token → c.pushback = [] → token.type = endMark →
      Q.Feed c.host none → Input Q c []

variable {Q} {c : Config S V σ} {w : List α}

omit [DecidableEq S] in
lemma Input.exists_feed (hi : Input Q c w) : ∃ f, Q.Feed c.host f ∧ ∀ c' : Config S V σ,
    c'.lookahead = c.lookahead → c'.pushback = c.pushback → Q.Feed c'.host f → Input Q c' w := by
  cases hi with
  | unread hl hp hf => exact ⟨_, hf, fun c' hl' hp' hf' => .unread (hl'.trans hl) (hp'.trans hp) hf'⟩
  | token hl hp htype hvalue hreads hf =>
    exact ⟨_, hf, fun c' hl' hp' hf' => .token (hl'.trans hl) (hp'.trans hp) htype hvalue hreads hf'⟩
  | atEnd hl hp htype hf => exact ⟨_, hf, fun c' hl' hp' hf' => .atEnd (hl'.trans hl) (hp'.trans hp) htype hf'⟩

omit [DecidableEq S] in
lemma Input.fetch (hi : Input Q c w) : ∃ token host,
    fetch h c = (.ok token, { c with lookahead := some token, host := host }) ∧ Q.clean host = Q.clean c.host ∧
    token.type = Q.ahead w ∧ Input Q { c with lookahead := some token, host := host } w := by
  cases hi with
  | unread hl hp hf =>
    cases w with
    | nil =>
      obtain ⟨s', hnext, hf', hclean⟩ := Q.done hf
      refine ⟨.atEnd, s', ?_, hclean, rfl, .atEnd rfl hp rfl hf'⟩
      simp only [Parser.fetch, hl, hp, hnext, Option.getD_none]
    | cons a w =>
      obtain ⟨token, v, s', hnext, htype, hvalue, hreads, hf', hclean⟩ := Q.next hf
      refine ⟨token, s', ?_, hclean, htype, .token rfl hp htype hvalue hreads hf'⟩
      simp only [Parser.fetch, hl, hp, hnext, Option.getD_some]
  | token hl hp htype hvalue hreads hf =>
    rename_i a w token v
    have hc : { c with lookahead := some token, host := c.host } = c := by
      rw [← hl]
    refine ⟨token, c.host, ?_, rfl, htype, ?_⟩
    · rw [hc]
      simp only [Parser.fetch, hl]
    · exact .token rfl hp htype hvalue hreads hf
  | atEnd hl hp htype hf =>
    rename_i token
    have hc : { c with lookahead := some token, host := c.host } = c := by
      rw [← hl]
    refine ⟨token, c.host, ?_, rfl, htype, ?_⟩
    · rw [hc]
      simp only [Parser.fetch, hl]
    · exact .atEnd rfl hp htype hf

structure Normal (Q : Quiet h α) (A : Collection S) (c : Config S V σ) (ss : List (StackSymbol S V)) (w : List α) :
    Prop where
  entered : Entered A c.states (ss.map StackSymbol.type)
  state : c.states.head? = some c.state
  symbols : c.symbols = ss ++ [.atEnd]
  input : Input Q c w
  calm : Q.clean c.host = true → c.errorCount = 0

/-- Tables for an automaton that steps neither over the error symbol nor over the end, and whose inner states can
all shift. -/
structure Steady (t : Tables S) (g : Grammar S) (p : Production S) (A : Collection S) (start : S) : Prop where
  plain : Plain g p A start
  serves : Serves t g p A start
  marks : (endMark : S) ≠ errorMark
  alien : ∀ q, A.goto? q errorMark = none
  ending : ∀ q, A.goto? q endMark = none
  inner : ∀ {q s r}, A.goto? q s = some r → ∃ s' r', t.action? q s' = some (.shift r')

variable {t : Tables S} {g : Grammar S} {p pr : Production S} {A : Collection S} {start s : S}
  {ss : List (StackSymbol S V)} {r : Nat} {qs : List Nat}

lemma Steady.default?_of_shift (ht : Steady t g p A start) {q : Nat} (hs : t.action? q s = some (.shift r)) :
    t.default? q = none := by
  cases hd : t.default? q with
  | none => rfl
  | some n => cases (ht.serves.of_default hd).2 hs

lemma Steady.action?_error (ht : Steady t g p A start) (q : Nat) : t.action? q errorMark = none := by
  cases ha : t.action? q errorMark with
  | none => rfl
  | some a =>
    rcases ht.serves.expected ha with he | ⟨q', i, hi, hnext⟩
    · exact absurd he.symm ht.marks
    · obtain ⟨pr, -, d, -, rfl⟩ := ht.plain.explored.belongs hi
      obtain ⟨r, hr⟩ := ht.plain.explored.exists_goto? hi hnext
      rw [ht.alien] at hr
      cases hr

lemma Steady.action?_end (ht : Steady t g p A start) (q r : Nat) : t.action? q endMark ≠ some (.shift r) := by
  intro hact
  have hgoto := (ht.serves.of_shift hact).1
  rw [ht.ending] at hgoto
  cases hgoto

lemma Normal.exists_states (hn : Normal Q A c ss w) : ∃ qs, c.states = c.state :: qs := by
  obtain ⟨q, qs, hq⟩ := hn.entered.exists_cons
  refine ⟨qs, ?_⟩
  have := hn.state
  rw [hq] at this ⊢
  rw [Option.some.inj this]

lemma step_eq (t : Tables S) (c : Config S V σ) : step h t {} c =
    match t.default? c.state with
    | some n => reduceBy h t {} n c
    | none => match fetch h c with
      | (.error e, c) => .failed (.host e) c
      | (.ok token, c) => act h t {} token c := rfl

lemma Normal.step_cases (hn : Normal Q A c ss w) (t : Tables S) :
    (∃ n, t.default? c.state = some n ∧ step h t {} c = reduceBy h t {} n c) ∨
    t.default? c.state = none ∧ ∃ token c', step h t {} c = act h t {} token c' ∧ token.type = Q.ahead w ∧
      Normal Q A c' ss w ∧ c'.lookahead = some token ∧ c'.states = c.states ∧ c'.state = c.state ∧
      Q.clean c'.host = Q.clean c.host := by
  rw [step_eq]
  cases t.default? c.state with
  | some n => exact .inl ⟨n, rfl, rfl⟩
  | none =>
    obtain ⟨token, host, hfetch, hclean, htype, hinput⟩ := hn.input.fetch
    rw [hfetch]
    refine .inr ⟨rfl, token, { c with lookahead := some token, host := host }, rfl, htype, ?_, rfl, rfl, rfl, hclean⟩
    exact ⟨hn.entered, hn.state, hn.symbols, hinput, fun hcl => hn.calm (hclean ▸ hcl)⟩

lemma Normal.shift {a : α} (hn : Normal Q A c ss (a :: w)) {token : StackSymbol S V} (hl : c.lookahead = some token)
    (hr : A.goto? c.state (Q.type a) = some r) :
    ∃ c' v, Parser.shift (E := E) {} token r c = .running c' ∧ token.type = Q.type a ∧ token.value = some v ∧ Q.Reads a v ∧
      Normal Q A c' (token :: ss) w ∧ c'.states = r :: c.states ∧ Q.clean c'.host = Q.clean c.host := by
  obtain ⟨qs, hqs⟩ := hn.exists_states
  cases hn.input with
  | unread hnone _ _ =>
    rw [hl] at hnone
    cases hnone
  | token hsome hp htype hvalue hreads hf =>
    rw [hl] at hsome
    obtain rfl := Option.some.inj hsome
    refine ⟨_, _, rfl, htype, hvalue, hreads, ⟨?_, rfl, ?_, .unread rfl hp hf, ?_⟩, rfl, rfl⟩
    · have hent := hn.entered
      rw [hqs] at hent
      change Entered A (r :: c.states) (token.type :: ss.map StackSymbol.type)
      rw [hqs, htype]
      exact hent.push hr
    · change token :: c.symbols = token :: (ss ++ [.atEnd])
      rw [hn.symbols]
    · intro hcl
      change c.errorCount - 1 = 0
      rw [hn.calm hcl]

lemma reduceBy_eq (hp : t.productions = g.all) (hg : g.Numbered) (hpr : pr ∈ g.all) (ha : g.augmented = some p)
    {m : Mode} : reduceBy h t m pr.number c = reduce h t m pr c := by
  have hget : t.productions[pr.number]? = some pr := by
    rw [hp, Grammar.all, ha]
    have hnum := hg.production?_number hpr
    cases hn : pr.number with
    | zero =>
      rw [hn, Grammar.production?, ha] at hnum
      exact hnum
    | succ n =>
      rw [hn] at hnum
      exact hnum
  rw [reduceBy, hget]

def reduced (pr : Production S) (s : StackSymbol S V) (r : Nat) (host : σ) (c : Config S V σ) : Config S V σ :=
  { c with
    states := r :: c.states.drop pr.symbols.length
    state := r
    symbols := s :: c.symbols.drop pr.symbols.length
    settled := c.settled || false
    host := host }

lemma reduce_eq {s : StackSymbol S V} {host : σ} (happly : h.apply ⟨pr, { type := pr.name, value := some h.nothing },
      (c.symbols.take pr.symbols.length).reverse, c.symbols.drop pr.symbols.length⟩ c.host = (.done s false, host))
    (hgoto : gotoOf t (c.states.drop pr.symbols.length) pr.name = .ok r) :
    reduce h t {} pr c = .running (reduced pr s r host c) := by
  simp only [reduce, traced, newSymbol, happly, pushReduced, hgoto, Bool.false_eq_true, if_false, reduced]

lemma Normal.reduce (ht : Steady t g p A start) (hn : Normal Q A c ss w) (hpr : pr ∈ g.productions)
    (hi : pr.dotted pr.symbols.length ∈ A.itemsOf c.state) :
    ∃ c' v q qs r, reduceBy h t {} pr.number c = .running c' ∧ c.states.drop pr.symbols.length = q :: qs ∧
      pr.dotted 0 ∈ A.itemsOf q ∧ A.goto? q pr.name = some r ∧
      (ss.take pr.symbols.length).reverse.map StackSymbol.type = pr.symbols ∧
      Q.Acts pr.name ((ss.take pr.symbols.length).reverse.map fun a => a.value.getD h.nothing) v ∧
      Normal Q A c' ({ type := pr.name, value := some v } :: ss.drop pr.symbols.length) w ∧
      c'.states = r :: q :: qs ∧ Q.clean c'.host = Q.clean c.host := by
  obtain ⟨rest, hrest⟩ := hn.exists_states
  have hent := hn.entered
  rw [hrest] at hent
  obtain ⟨q, qs, hdrop, hent', htake, h0⟩ := hent.retreat ht.plain.explored hi
  rw [← hrest] at hdrop
  obtain ⟨i, hmem, hnext, hnon⟩ := Lookahead.mem_transitions.mp (ht.plain.mem_transitions ht.plain.explored hpr h0)
  obtain ⟨r, hr⟩ : ∃ r, A.goto? q pr.name = some r := by
    obtain ⟨pr', -, d, -, rfl⟩ := ht.plain.explored.belongs hmem
    exact ht.plain.explored.exists_goto? hmem hnext
  rw [take_length] at htake
  have hlen : pr.symbols.length ≤ ss.length := by
    have := congrArg List.length htake
    simp only [length_take, length_map, length_reverse] at this
    omega
  have hsymbols : c.symbols.take pr.symbols.length = ss.take pr.symbols.length := by
    rw [hn.symbols, take_append_of_le_length hlen]
  have hbelow : c.symbols.drop pr.symbols.length = ss.drop pr.symbols.length ++ [.atEnd] := by
    rw [hn.symbols, drop_append_of_le_length hlen]
  obtain ⟨w', hf, hinput⟩ := hn.input.exists_feed
  obtain ⟨v, s', happly, hacts, hf', hclean⟩ := Q.rule
    ⟨pr, { type := pr.name, value := some h.nothing }, (c.symbols.take pr.symbols.length).reverse,
      c.symbols.drop pr.symbols.length⟩ hf
  have hall : pr ∈ g.all := mem_append_right _ hpr
  have hgoto : gotoOf t (c.states.drop pr.symbols.length) pr.name = .ok r := by
    rw [hdrop, gotoOf, ht.serves.goto hr hnon]
  refine ⟨reduced pr { type := pr.name, value := some v } r s' c, v, q, qs, r, ?_, hdrop, h0, hr, ?_, hsymbols ▸ hacts,
    ⟨?_, rfl, ?_, hinput _ rfl rfl hf', fun hcl => hn.calm (hclean ▸ hcl)⟩, ?_, hclean⟩
  · rw [reduceBy_eq ht.serves.productions ht.plain.explored.numbered hall ht.plain.augmented]
    exact reduce_eq happly hgoto
  · rw [map_reverse, map_take, htake, reverse_reverse]
  · change Entered A (r :: c.states.drop pr.symbols.length) (pr.name :: (ss.drop pr.symbols.length).map StackSymbol.type)
    rw [hdrop, map_drop]
    exact hent'.push hr
  · change _ :: c.symbols.drop pr.symbols.length = _
    rw [hbelow, cons_append]
  · change r :: c.states.drop pr.symbols.length = _
    rw [hdrop]

omit [DecidableEq S] in
lemma Input.of_lookahead (hi : Input Q c w) {token : StackSymbol S V} (hl : c.lookahead = some token) :
    w = [] ∧ token.type = endMark ∧ Q.Feed c.host none ∨
      ∃ a w', w = a :: w' ∧ token.type = Q.type a ∧ Q.Feed c.host (some w') := by
  cases hi with
  | unread hnone _ _ =>
    rw [hl] at hnone
    cases hnone
  | token hsome _ htype _ _ hf =>
    rw [hl] at hsome
    obtain rfl := Option.some.inj hsome
    exact .inr ⟨_, _, rfl, htype, hf⟩
  | atEnd hsome _ htype hf =>
    rw [hl] at hsome
    obtain rfl := Option.some.inj hsome
    exact .inl ⟨rfl, htype, hf⟩

lemma Normal.accept (ht : Steady t g p A start) (hn : Normal Q A c ss w) {token : StackSymbol S V}
    (hl : c.lookahead = some token) (ha : t.action? c.state token.type = some .accept) :
    w = [] ∧ Q.Feed c.host none ∧ ∃ top, ss = [top] ∧ top.type = start ∧ Parser.accept h {} c = .finished top.value c := by
  obtain ⟨hend, hi⟩ := ht.serves.of_accept ha
  obtain ⟨hw, hf⟩ : w = [] ∧ Q.Feed c.host none := by
    rcases hn.input.of_lookahead hl with ⟨hw, -, hf⟩ | ⟨a, -, -, htype, -⟩
    · exact ⟨hw, hf⟩
    · exact absurd (htype.symm.trans hend) (Q.plain a).1
  obtain ⟨rest, hrest⟩ := hn.exists_states
  have hent := hn.entered
  rw [hrest] at hent
  obtain ⟨q, qs, -, hent', htake, h0⟩ := hent.retreat ht.plain.explored hi
  obtain rfl := ht.plain.eq_zero_of_mem ht.plain.explored h0
  rw [ht.plain.first.2] at htake
  cases ss with
  | nil => cases htake
  | cons top ss =>
    obtain ⟨htop, -⟩ := List.cons.inj htake
    have hnil : ss = [] := by
      cases ss with
      | nil => rfl
      | cons _ _ =>
        cases hent' with
        | push _ hgoto => exact absurd hgoto ht.plain.explored.goto?_ne_zero
    subst hnil
    refine ⟨hw, hf, top, rfl, htop, ?_⟩
    simp only [Parser.accept, hn.symbols, cons_append, traced, Bool.false_eq_true, if_false]

structure Panic (Q : Quiet h α) (t : Tables S) (A : Collection S) (c : Config S V σ) (ss : List (StackSymbol S V))
    (w : List α) : Prop where
  entered : Entered A c.states (ss.map StackSymbol.type)
  state : c.states.head? = some c.state
  symbols : c.symbols = ss ++ [.atEnd]
  lookahead : ∃ e, c.lookahead = some e ∧ e.type = errorMark
  feed : Q.Feed c.host (some w)
  dirty : Q.clean c.host = false
  waiting : t.default? c.state = none

lemma recover_eq (hcalm : Q.clean c.host = true → c.errorCount = 0) {f : Option (List α)} (hf : Q.Feed c.host f)
    (token : StackSymbol S V) : ∃ c', recover h {} token c = panicStep h {} token c' ∧ c'.states = c.states ∧
      c'.state = c.state ∧ c'.symbols = c.symbols ∧ Q.Feed c'.host f ∧ Q.clean c'.host = false := by
  have hrecover : recover h {} token c = if c.errorCount = 0 || c.settled then report h {} token c
      else panicStep h {} token { c with errorCount := recoveryLength } := rfl
  rw [hrecover]
  split
  · obtain ⟨react, hreact, hreply⟩ := Q.complain
    obtain ⟨s', heq, hfeed, hclean⟩ := @hreply (if token.type = endMark then none else some token) c.host f hf
    refine ⟨{ c with errorCount := recoveryLength, settled := false, host := s' }, ?_, rfl, rfl, rfl, hfeed, hclean⟩
    simp only [report, hreact, heq, Bool.false_eq_true, if_false]
  · rename_i hcond
    refine ⟨{ c with errorCount := recoveryLength }, rfl, rfl, rfl, rfl, hf, ?_⟩
    cases hcl : Q.clean c.host with
    | false => rfl
    | true =>
      rw [hcalm hcl] at hcond
      exact absurd rfl hcond

section PanicStep

variable {token top : StackSymbol S V} {rest : List (StackSymbol S V)}

lemma panicStep_atEnd (hend : token.type = endMark) : panicStep h {} token c = .finished none c := by
  simp [panicStep, hend]

lemma panicStep_discard (hlen : c.states.length ≤ 1) (hne : token.type ≠ endMark) :
    panicStep h {} token c = .running { c with lookahead := none, state := 0, pushback := [] } := by
  simp [panicStep, hlen, hne]

lemma panicStep_begin (hlen : ¬c.states.length ≤ 1) (hne : token.type ≠ endMark) (herr : token.type ≠ errorMark)
    (hs : c.symbols = top :: rest) (htop : top.type ≠ errorMark) :
    panicStep h {} token c =
      .running { c with lookahead := some (errorSymbol h token), pushback := some token :: c.pushback } := by
  simp [panicStep, hlen, hne, herr, hs, htop]

lemma panicStep_pop (hmarks : (endMark : S) ≠ errorMark) (herr : token.type = errorMark) {q r : Nat} {qs : List Nat}
    (hq : c.states = q :: r :: qs) (hs : c.symbols = top :: rest) :
    panicStep h {} token c =
      .running { c with symbols := rest, states := r :: qs, state := r, lookahead := some token } := by
  simp [panicStep, hq, herr, hs, hmarks.symm]

end PanicStep

lemma Steady.type_ne_error (ht : Steady t g p A start) {types : List S} (he : Entered A qs types)
    (hs : s ∈ types) : s ≠ errorMark := by
  induction he with
  | start => cases hs
  | push _ hgoto ih =>
    rcases mem_cons.mp hs with rfl | hs
    · rintro rfl
      rw [ht.alien] at hgoto
      cases hgoto
    · exact ih hs

lemma normal_discarded (hq : c.states = [0]) (hs : c.symbols = [.atEnd]) (hf : Q.Feed c.host (some w))
    (hdirty : Q.clean c.host = false) : Normal Q A { c with lookahead := none, state := 0, pushback := [] } [] w := by
  refine ⟨?_, ?_, hs, .unread rfl rfl hf, ?_⟩
  · change Entered A c.states []
    rw [hq]
    exact .start
  · change c.states.head? = some 0
    rw [hq]
    rfl
  · intro hcl
    rw [show Q.clean _ = false from hdirty] at hcl
    cases hcl

lemma Normal.recover (ht : Steady t g p A start) (hn : Normal Q A c ss w) {token : StackSymbol S V}
    (hl : c.lookahead = some token) (hd : t.default? c.state = none) :
    (w = [] ∧ ∃ c', Parser.recover h {} token c = .finished none c' ∧ Q.Feed c'.host none ∧ Q.clean c'.host = false) ∨
    ∃ a w', w = a :: w' ∧ ∃ c', Parser.recover h {} token c = .running c' ∧ Q.clean c'.host = false ∧
      (ss = [] ∧ Normal Q A c' [] w' ∨ Panic Q t A c' ss w') := by
  rcases hn.input.of_lookahead hl with ⟨rfl, hend, hf⟩ | ⟨a, w', rfl, htype, hf⟩
  · obtain ⟨c', heq, -, -, -, hf', hdirty⟩ := recover_eq hn.calm hf token
    exact .inl ⟨rfl, c', by rw [heq, panicStep_atEnd hend], hf', hdirty⟩
  · obtain ⟨c', heq, hstates, hstate, hsymbols, hf', hdirty⟩ := recover_eq hn.calm hf token
    have hne : token.type ≠ endMark := htype ▸ (Q.plain a).1
    refine .inr ⟨a, w', rfl, ?_⟩
    rw [heq]
    cases ss with
    | nil =>
      have hzero : c'.states = [0] := hstates.trans hn.entered.eq_start
      refine ⟨_, panicStep_discard (by rw [hzero]; exact Nat.le_refl 1) hne, hdirty, .inl ⟨rfl, ?_⟩⟩
      exact normal_discarded hzero (hsymbols.trans hn.symbols) hf' hdirty
    | cons top ss =>
      have hlen : ¬c'.states.length ≤ 1 := by
        rw [hstates, hn.entered.length_eq, map_cons, length_cons]
        omega
      have htop : top.type ≠ errorMark := ht.type_ne_error hn.entered mem_cons_self
      refine ⟨_, panicStep_begin hlen hne (htype ▸ (Q.plain a).2) (hsymbols.trans hn.symbols) htop, hdirty,
        .inr ⟨?_, ?_, ?_, ⟨_, rfl, rfl⟩, hf', hdirty, ?_⟩⟩
      · change Entered A c'.states _
        rw [hstates]
        exact hn.entered
      · change c'.states.head? = some c'.state
        rw [hstates, hstate]
        exact hn.state
      · change c'.symbols = _
        rw [hsymbols, hn.symbols]
      · change t.default? c'.state = none
        rw [hstate]
        exact hd

lemma Panic.step (ht : Steady t g p A start) (hp : Panic Q t A c ss w) :
    ∃ c', Parser.step h t {} c = .running c' ∧ Q.clean c'.host = false ∧
      (ss = [] ∧ Normal Q A c' [] w ∨ ∃ top rest, ss = top :: rest ∧ Panic Q t A c' rest w) := by
  obtain ⟨e, hl, herr⟩ := hp.lookahead
  have hne : e.type ≠ endMark := by
    rw [herr]
    exact ht.marks.symm
  have hcalm : Q.clean c.host = true → c.errorCount = 0 := by
    rw [hp.dirty]
    exact Bool.noConfusion
  obtain ⟨c', heq, hstates, -, hsymbols, hf, hdirty⟩ := recover_eq hcalm hp.feed e
  have hstep : Parser.step h t {} c = panicStep h {} e c' := by
    have hfetch : fetch h c = (.ok e, c) := by simp only [Parser.fetch, hl]
    rw [step_eq, hp.waiting, hfetch]
    change act h t {} e c = _
    rw [act, herr, ht.action?_error]
    exact heq
  rw [hstep]
  cases ss with
  | nil =>
    have hzero : c'.states = [0] := hstates.trans hp.entered.eq_start
    refine ⟨_, panicStep_discard (by rw [hzero]; exact Nat.le_refl 1) hne, hdirty, .inl ⟨rfl, ?_⟩⟩
    exact normal_discarded hzero (hsymbols.trans hp.symbols) hf hdirty
  | cons top rest =>
    have hent := hp.entered
    rw [← hstates] at hent
    obtain ⟨r, q, qs, hq, hent', hgoto⟩ := hent.exists_push
    refine ⟨_, panicStep_pop ht.marks herr hq (hsymbols.trans hp.symbols), hdirty,
      .inr ⟨top, rest, rfl, hent', rfl, rfl, ⟨e, rfl, herr⟩, hf, hdirty, ?_⟩⟩
    obtain ⟨s', r', hshift⟩ := ht.inner hgoto
    exact ht.default?_of_shift hshift

lemma Normal.state_eq (hn : Normal Q A c ss w) (hq : c.states = r :: qs) : c.state = r := by
  have := hn.state
  rw [hq] at this
  exact (Option.some.inj this).symm

inductive Effect (Q : Quiet h α) (t : Tables S) (g : Grammar S) (A : Collection S) (start : S) (c : Config S V σ)
    (ss : List (StackSymbol S V)) (w : List α) : Progress S V σ E → Prop
  | shift {a : α} {w' : List α} {token : StackSymbol S V} {c' : Config S V σ} : w = a :: w' →
      g.isTerminal (Q.type a) = true → A.goto? c.state (Q.type a) = some c'.state → token.type = Q.type a →
      Normal Q A c' (token :: ss) w' → Q.clean c'.host = Q.clean c.host → Effect Q t g A start c ss w (.running c')
  | reduce {pr : Production S} {q : Nat} {v : V} {c' : Config S V σ} : pr ∈ g.productions →
      pr.dotted pr.symbols.length ∈ A.itemsOf c.state → A.goto? q pr.name = some c'.state →
      (ss.take pr.symbols.length).reverse.map StackSymbol.type = pr.symbols →
      Normal Q A c' ({ type := pr.name, value := some v } :: ss.drop pr.symbols.length) w →
      Q.clean c'.host = Q.clean c.host → Effect Q t g A start c ss w (.running c')
  | accept {top : StackSymbol S V} {c' : Config S V σ} : w = [] → ss = [top] → top.type = start →
      Q.Feed c'.host none → Q.clean c'.host = Q.clean c.host → Effect Q t g A start c ss w (.finished top.value c')
  | fail {c' : Config S V σ} : Q.Feed c'.host none → Q.clean c'.host = false → Effect Q t g A start c ss w (.finished none c')
  | discard {a : α} {w' : List α} {c' : Config S V σ} : w = a :: w' → ss = [] → Normal Q A c' [] w' →
      Q.clean c'.host = false → Effect Q t g A start c ss w (.running c')
  | panic {a : α} {w' : List α} {c' : Config S V σ} : w = a :: w' → Panic Q t A c' ss w' →
      Effect Q t g A start c ss w (.running c')

lemma Normal.effect_reduce (ht : Steady t g p A start) (hn : Normal Q A c ss w) (hpr : pr ∈ g.productions)
    (hi : pr.dotted pr.symbols.length ∈ A.itemsOf c.state) :
    Effect Q t g A start c ss w (reduceBy h t {} pr.number c) := by
  obtain ⟨c', v, q, qs, r, heq, -, -, hr, htypes, -, hn', hstates, hclean⟩ := hn.reduce ht hpr hi
  rw [heq]
  rw [← hn'.state_eq hstates] at hr
  exact .reduce hpr hi hr htypes hn' hclean

lemma Effect.of_same {c₀ : Config S V σ} {r : Progress S V σ E} (hr : Effect Q t g A start c ss w r)
    (hs : c.state = c₀.state) (hclean : Q.clean c.host = Q.clean c₀.host) : Effect Q t g A start c₀ ss w r := by
  cases hr with
  | shift hw hterm hgoto htype hn hcl => exact .shift hw hterm (hs ▸ hgoto) htype hn (hcl.trans hclean)
  | reduce hpr hi hgoto htypes hn hcl => exact .reduce hpr (hs ▸ hi) hgoto htypes hn (hcl.trans hclean)
  | accept hw hss htype hf hcl => exact .accept hw hss htype hf (hcl.trans hclean)
  | fail hf hcl => exact .fail hf hcl
  | discard hw hss hn hcl => exact .discard hw hss hn hcl
  | panic hw hp => exact .panic hw hp

theorem Normal.effect (ht : Steady t g p A start) (hn : Normal Q A c ss w) :
    Effect Q t g A start c ss w (step h t {} c) := by
  rcases hn.step_cases t with ⟨n, hd, heq⟩ | ⟨hd, token, c', heq, htype, hn', hl, hstates, hstate, hclean⟩
  · obtain ⟨⟨s, hs⟩, -⟩ := ht.serves.of_default hd
    obtain ⟨pr, hpr, rfl, hi⟩ := ht.serves.of_reduce hs
    rw [heq]
    exact hn.effect_reduce ht hpr hi
  · rw [heq]
    refine Effect.of_same ?_ hstate hclean
    rw [← hstate] at hd
    unfold act
    cases ha : t.action? c'.state token.type with
    | none =>
      rcases hn'.recover ht hl hd with ⟨-, c'', heq', hf, hdirty⟩ | ⟨a, w', hw, c'', heq', hdirty, hcase⟩
      · rw [heq']
        exact .fail hf hdirty
      · rw [heq']
        rcases hcase with ⟨hss, hnormal⟩ | hpanic
        · exact .discard hw hss hnormal hdirty
        · exact .panic hw hpanic
    | some a =>
      cases a with
      | shift r =>
        obtain ⟨hgoto, hterm⟩ := ht.serves.of_shift ha
        rw [htype] at hgoto hterm
        cases w with
        | nil =>
          rw [show Q.ahead [] = endMark from rfl, ht.ending] at hgoto
          cases hgoto
        | cons a w =>
          obtain ⟨c'', v, heq', htype', -, -, hn'', hstates', hclean'⟩ := hn'.shift hl hgoto
          dsimp only
          rw [heq']
          exact .shift rfl hterm (by rw [hn''.state_eq hstates']; exact hgoto) htype' hn'' hclean'
      | reduce n =>
        obtain ⟨pr, hpr, rfl, hi⟩ := ht.serves.of_reduce ha
        exact hn'.effect_reduce ht hpr hi
      | accept =>
        obtain ⟨hw, hf, top, hss, htop, heq'⟩ := hn'.accept ht hl ha
        dsimp only
        rw [heq']
        exact .accept hw hss htop hf rfl

end LispKit.Parser
