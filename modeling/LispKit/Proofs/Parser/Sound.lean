import LispKit.Parser.Behaviour
import LispKit.Proofs.Parser.History
import LispKit.Proofs.Parser.Respects
import LispKit.Proofs.Parser.Step
import LispKit.Proofs.Parser.Undisturbed

/-! A parser that accepts without an error has found a derivation: the stacks always spell a way through the automaton,
so each reduction takes from the stack what its production asks for. -/

namespace LispKit.Parser

open Vocabulary Collection ParseTree History List

variable {S V σ E : Type} [DecidableEq S] [Vocabulary S] {s : StackSymbol S V}

def upToEnd (tokens : List (StackSymbol S V)) : List (StackSymbol S V) :=
  tokens.takeWhile fun s => s.type ≠ endMark

lemma upToEnd_of_eq (hs : s.type = endMark) (rest : List (StackSymbol S V)) : upToEnd (s :: rest) = [] := by
  simp [upToEnd, hs]

lemma upToEnd_of_ne (hs : s.type ≠ endMark) (rest : List (StackSymbol S V)) :
    upToEnd (s :: rest) = s :: upToEnd rest := by
  simp [upToEnd, hs]

abbrev ReadUnder (g : Grammar S) (tree : History S V) : Prop :=
  Proper g.productions (g.isTerminal · = true) tree

structure Held (g : Grammar S) (A : Collection S) (rest : σ → List (StackSymbol S V)) (input : List (StackSymbol S V))
    (c : Config S V (σ × Record S V E)) (trees : List (History S V)) : Prop where
  entered : Entered A c.states (trees.map type)
  state : c.states.head? = some c.state
  symbols : c.symbols = trees.map symbol ++ [.atEnd]
  pushback : c.pushback = []
  proper : ∀ tree ∈ trees, ReadUnder g tree
  record : c.host.2 = (callsOf trees.reverse).map Call.answered
  input : words trees.reverse ++ upToEnd (c.lookahead.toList ++ rest c.host.1) = input

variable {g : Grammar S} {p : Production S} {A : Collection S} {start : S} {t : Tables S} {m : Mode}
variable {h : Host S V σ E} {rest : σ → List (StackSymbol S V)} {input : List (StackSymbol S V)}
variable {c c' : Config S V (σ × Record S V E)} {trees : List (History S V)}

lemma held_start (host : σ) (settled : Bool) (log : String) :
    Held (E := E) g A rest (upToEnd (rest host)) { Config.start (host, []) settled with log := log } [] :=
  ⟨.start, rfl, rfl, rfl, forall_mem_nil _, rfl, rfl⟩

namespace Held

lemma log (hc : Held g A rest input c trees) (log : String) : Held g A rest input { c with log := log } trees :=
  ⟨hc.entered, hc.state, hc.symbols, hc.pushback, hc.proper, hc.record, hc.input⟩

lemma exists_states (hc : Held g A rest input c trees) : ∃ qs, c.states = c.state :: qs := by
  obtain ⟨q, qs, hq⟩ := hc.entered.exists_cons
  refine ⟨qs, ?_⟩
  have := hc.state
  rw [hq] at this ⊢
  rw [Option.some.inj this]

lemma fetch (hf : h.Feeds rest) (hc : Held g A rest input c trees) {ahead : StackSymbol S V}
    (hfetch : fetch h.recording c = (.ok ahead, c')) :
    Held g A rest input c' trees ∧ c'.lookahead = some ahead ∧ c'.state = c.state := by
  unfold Parser.fetch at hfetch
  cases hl : c.lookahead with
  | some s =>
    simp only [hl] at hfetch
    obtain ⟨hs, rfl⟩ := Prod.mk.inj hfetch
    exact ⟨hc, hl.trans (congrArg some (Except.ok.inj hs)), rfl⟩
  | none =>
    have hnext : h.recording.nextToken c.host =
        (.ok (rest c.host.1).head?, (h.nextToken c.host.1).2, c.host.2) :=
      congrArg (fun x => (x, (h.nextToken c.host.1).2, c.host.2)) (hf.token c.host.1)
    simp only [hl, hc.pushback, hnext] at hfetch
    obtain ⟨hs, rfl⟩ := Prod.mk.inj hfetch
    obtain rfl := Except.ok.inj hs
    refine ⟨⟨hc.entered, hc.state, hc.symbols, rfl, hc.proper, hc.record, ?_⟩, rfl, rfl⟩
    have hinput := hc.input
    rw [hl] at hinput
    dsimp only
    rw [hf.next, ← hinput]
    cases rest c.host.1 with
    | nil => simp [upToEnd, StackSymbol.atEnd]
    | cons s more => rfl

lemma shift (hc : Held g A rest input c trees) {s : StackSymbol S V} (hl : c.lookahead = some s) {target : Nat}
    (hgoto : A.goto? c.state s.type = some target) (hterm : g.isTerminal s.type = true) (hs : s.type ≠ endMark)
    (log : String) : Held g A rest input { c with
      log := log
      states := target :: c.states
      state := target
      symbols := s :: c.symbols
      lookahead := none
      errorCount := c.errorCount - 1 } (.leaf s :: trees) := by
  obtain ⟨qs, hqs⟩ := hc.exists_states
  refine ⟨?_, rfl, ?_, hc.pushback, forall_mem_cons.mpr ⟨.leaf s hterm, hc.proper⟩, ?_, ?_⟩
  · have hent := hc.entered
    rw [hqs] at hent
    dsimp only
    rw [hqs]
    exact hent.push hgoto
  · dsimp only
    rw [hc.symbols]
    rfl
  · rw [reverse_cons, callsOf_append]
    exact hc.record.trans (by simp [callsOf, calls])
  · have hinput := hc.input
    rw [hl, Option.toList_some, singleton_append, upToEnd_of_ne hs] at hinput
    rw [reverse_cons, words_append, append_assoc]
    exact hinput

lemma take_symbols (hc : Held g A rest input c trees) {n : Nat} (hn : n ≤ trees.length) :
    c.symbols.take n = (trees.take n).map symbol ∧ c.symbols.drop n = (trees.drop n).map symbol ++ [.atEnd] := by
  have hlen : n ≤ (trees.map symbol).length := by rwa [length_map]
  rw [hc.symbols, take_append_of_le_length hlen, drop_append_of_le_length hlen, map_take, map_drop]
  exact ⟨rfl, rfl⟩

lemma retreat (hA : Explored g p A) (hc : Held g A rest input c trees) {pr : Production S}
    (hi : pr.dotted pr.symbols.length ∈ A.itemsOf c.state) :
    ∃ q qs, c.states.drop pr.symbols.length = q :: qs ∧ Entered A (q :: qs) ((trees.drop pr.symbols.length).map type) ∧
      pr.dotted 0 ∈ A.itemsOf q ∧ (trees.take pr.symbols.length).reverse.map type = pr.symbols ∧
      pr.symbols.length ≤ trees.length := by
  obtain ⟨qs, hqs⟩ := hc.exists_states
  have hent := hc.entered
  rw [hqs] at hent ⊢
  obtain ⟨q', qs', hdrop, hent', htake, h0⟩ := hent.retreat hA hi
  rw [take_length] at htake
  refine ⟨q', qs', hdrop, ?_, h0, ?_, ?_⟩
  · rwa [map_drop]
  · rw [map_reverse, map_take, htake, reverse_reverse]
  · have := congrArg List.length htake
    simp only [length_take, length_map, length_reverse] at this
    omega

variable {r : Progress S V (σ × Record S V E) E}

lemma reduce (hf : h.Feeds rest) (hA : Explored g p A) (ht : Respects t g p A) (hc : Held g A rest input c trees)
    {pr : Production S} (hpr : pr ∈ g.productions) (hi : pr.dotted pr.symbols.length ∈ A.itemsOf c.state)
    (hr : r.Succeeds) (hreduce : reduce h.recording t m pr c = r) :
    ∃ c', r = .running c' ∧ ((∃ call ∈ c'.host.2, call.2.isRaised = true) ∨ ∃ trees', Held g A rest input c' trees') := by
  obtain ⟨q, qs, hstates, hent, -, htypes, hlen⟩ := hc.retreat hA hi
  obtain ⟨htake, hdrop⟩ := hc.take_symbols hlen
  obtain ⟨reduction, reply, host, rfl, hargs, happly, hcase⟩ := of_reduce hr hreduce
  have hrecord := Host.of_recording_apply happly
  rcases hcase with ⟨rfl, c', rfl, rfl⟩ | ⟨s, recovered, top, below, target, log, rfl, htop, hgoto, rfl⟩
  · exact ⟨c', rfl, .inl ⟨_, Host.mem_recording_apply happly, rfl⟩⟩
  · obtain ⟨rfl, rfl⟩ := List.cons.inj (hstates.symm.trans htop)
    let call : Call S V := ⟨reduction, s, recovered⟩
    let pr := reduction.production
    have hsplit : trees.reverse = (trees.drop pr.symbols.length).reverse ++ (trees.take pr.symbols.length).reverse := by
      rw [← reverse_append, take_append_drop]
    refine ⟨_, rfl, .inr ⟨.node call (trees.take pr.symbols.length).reverse :: trees.drop pr.symbols.length, ?_⟩⟩
    refine ⟨hent.push (ht.of_goto hgoto), rfl, ?_, hc.pushback, forall_mem_cons.mpr ⟨?_, ?_⟩, ?_, ?_⟩
    · rw [hdrop]
      rfl
    · refine .node call _ hpr htypes ?_ fun tree htree => hc.proper tree (mem_of_mem_take (mem_reverse.mp htree))
      rw [map_reverse, ← htake]
      exact hargs
    · exact fun tree htree => hc.proper tree (mem_of_mem_drop htree)
    · dsimp only
      rw [hrecord, hc.record, hsplit, reverse_cons, callsOf_append, callsOf_append, callsOf, calls, callsOf,
        append_nil, ← append_assoc]
      simp only [map_append]
      rfl
    · have hinput := hc.input
      rw [hsplit, words_append] at hinput
      dsimp only
      rw [hrecord, hf.apply, reverse_cons, words_append, words, word, words, append_nil]
      exact hinput

lemma accept (hr : g.Ready p start) (hA : Explored g p A) (hc : Held g A rest input c trees) {s : StackSymbol S V}
    (hl : c.lookahead = some s) (hs : s.type = endMark) (hi : p.dotted 1 ∈ A.itemsOf c.state) :
    ∃ tree, trees = [tree] ∧ type tree = start ∧ tree.word = input ∧ c.host.2 = (calls tree).map Call.answered := by
  have hlen : p.symbols.length = 1 := by rw [hr.first.2]; rfl
  rw [← hlen] at hi
  obtain ⟨q, qs, -, hent, h0, htypes, -⟩ := hc.retreat hA hi
  obtain rfl := hr.eq_zero_of_mem hA h0
  rw [hlen] at hent htypes
  rw [hr.first.2] at htypes
  cases trees with
  | nil => cases htypes
  | cons tree below =>
    obtain rfl : below = [] := by
      cases below with
      | nil => rfl
      | cons _ _ =>
        cases hent with
        | push _ hgoto => exact absurd hgoto hA.goto?_ne_zero
    refine ⟨tree, rfl, (List.cons.inj htypes).1, ?_, ?_⟩
    · have hinput := hc.input
      rw [hl, Option.toList_some, singleton_append, upToEnd_of_eq hs] at hinput
      simpa [words] using hinput
    · rw [hc.record]
      simp [callsOf]

structure Accepted (g : Grammar S) (start : S) (input : List (StackSymbol S V)) (record : Record S V E)
    (tree : History S V) : Prop where
  proper : ReadUnder g tree
  type : type tree = start
  word : tree.word = input
  record : record = (calls tree).map Call.answered

lemma step (hf : h.Feeds rest) (hr : g.Ready p start) (hA : Explored g p A) (ht : Respects t g p A)
    (hc : Held g A rest input c trees) (hcalm : errs h.recording t c = false) (hsucc : r.Succeeds)
    (hstep : step h.recording t m c = r) :
    (∃ c', r = .running c' ∧ ((∃ call ∈ c'.host.2, call.2.isRaised = true) ∨ ∃ trees', Held g A rest input c' trees')) ∨
    ∃ tree c', r = .finished (symbol tree).value c' ∧ Accepted g start input c'.host.2 tree := by
  have hreduce : ∀ {c : Config S V (σ × Record S V E)} {n : Nat} {s : S}, Held g A rest input c trees →
      t.action? c.state s = some (.reduce n) → reduceBy h.recording t m n c = r →
      ∃ c', r = .running c' ∧ ((∃ call ∈ c'.host.2, call.2.isRaised = true) ∨ ∃ trees', Held g A rest input c' trees') := by
    intro c n s hc hact hred
    obtain ⟨pr, hpr, rfl, hi⟩ := ht.of_reduce hact
    rw [reduceBy_eq ht.productions hr.numbered (mem_append_right _ hpr) hr.augmented] at hred
    exact hc.reduce hf hA ht hpr hi hsucc hred
  rcases of_step hsucc hstep with ⟨n, log, hd, hred⟩ | ⟨hd, log, ahead, c₁, log', hfetch, hact⟩
  · obtain ⟨⟨s, hs⟩, -⟩ := ht.of_default hd
    exact .inl (hreduce (hc.log log) hs hred)
  · obtain ⟨hc₁, hl, hstate⟩ := (hc.log log).fetch hf hfetch
    have hstate : c₁.state = c.state := hstate
    unfold act at hact
    dsimp only at hact
    cases ha : t.action? c₁.state ahead.type with
    | none =>
      have herrs := errs_of_fetch hd (fetch_log hfetch) (hstate ▸ ha)
      rw [hcalm] at herrs
      cases herrs
    | some a =>
      rw [ha] at hact
      cases a with
      | shift target =>
        obtain ⟨hgoto, hterm⟩ := ht.of_shift ha
        obtain ⟨log'', rfl⟩ := of_shift hsucc hact
        exact .inl ⟨_, rfl, .inr ⟨_, hc₁.shift hl hgoto hterm (hr.unmarked_of_goto? hA hgoto).2 log''⟩⟩
      | reduce n => exact .inl (hreduce (hc₁.log log') ha hact)
      | accept =>
        obtain ⟨hs, hi⟩ := ht.of_accept ha
        obtain ⟨tree, rfl, htype, hword, hrecord⟩ := hc₁.accept hr hA hl hs hi
        obtain ⟨top, below, log'', hsymbols, rfl⟩ := of_accept hsucc hact
        rw [show ({ c₁ with log := log' } : Config S V (σ × Record S V E)).symbols = c₁.symbols from rfl,
          hc₁.symbols] at hsymbols
        obtain ⟨rfl, -⟩ := List.cons.inj hsymbols
        exact .inr ⟨tree, _, rfl, hc₁.proper tree mem_cons_self, htype, hword, hrecord⟩

lemma run (hf : h.Feeds rest) (hr : g.Ready p start) (hA : Explored g p A) (ht : Respects t g p A) {n : Nat}
    {v : Option V} (hc : Held g A rest input c trees)
    (hcalm : ∀ k c', run h.recording t m k c = .running c' → calm h t c' = true)
    (hrun : run h.recording t m n c = .finished v c') :
    ∃ tree, (symbol tree).value = v ∧ Accepted g start input c'.host.2 tree := by
  induction n generalizing c trees with
  | zero => cases hrun
  | succ n ih =>
    have hnow := (calm_iff.mp (hcalm 0 c rfl)).1
    unfold Parser.run at hrun
    cases hstep : Parser.step h.recording t m c with
    | failed e c₁ =>
      rw [hstep] at hrun
      cases hrun
    | finished v₁ c₁ =>
      rw [hstep] at hrun
      obtain ⟨rfl, rfl⟩ := Progress.finished.inj hrun
      rcases hc.step hf hr hA ht hnow (r := .finished v₁ c₁) trivial hstep with ⟨c₂, h₂, -⟩ | ⟨tree, c₂, h₂, haccepted⟩
      · cases h₂
      · obtain ⟨rfl, rfl⟩ := Progress.finished.inj h₂
        exact ⟨tree, rfl, haccepted⟩
    | running c₁ =>
      rw [hstep] at hrun
      have hcalm₁ : ∀ k c', Parser.run h.recording t m k c₁ = .running c' → calm h t c' = true := by
        intro k c' hk
        refine hcalm (k + 1) c' ?_
        rw [Parser.run, hstep]
        exact hk
      rcases hc.step hf hr hA ht hnow (r := .running c₁) trivial hstep with ⟨c₂, h₂, hnext⟩ | ⟨tree, c₂, h₂, -⟩
      · obtain rfl := Progress.running.inj h₂
        rcases hnext with ⟨call, hmem, hraised⟩ | ⟨trees', hc'⟩
        · rw [(calm_iff.mp (hcalm₁ 0 c₁ rfl)).2 call hmem] at hraised
          cases hraised
        · exact ih hc' hcalm₁ hrun
      · cases h₂

end Held

section Accept

variable {β : Type} {ds : Declarations β} {opts : BuildOptions} {b : Built} {logs : Logs} {t : Tables String}
variable {h : Host String V σ E} {rest : σ → List (StackSymbol String V)} {settled : Bool} {host : σ} {n : Nat}
variable {v : Option V} {c : Config String V σ}

lemma accepted_of_parse (hbuild : Parser.build ds opts = (.ok b, logs)) (ht : t = b.tables ∨ t = b.tables.withoutDefaults)
    (hfeeds : h.Feeds rest) (hcalm : Undisturbed h t m settled host) {c : Config String V (σ × Record String V E)}
    (hparse : parse h.recording t m n settled (host, []) = .finished v c) :
    ∃ start tree, b.grammar.start = some start ∧ (symbol tree).value = v ∧
      Held.Accepted b.grammar start (upToEnd (rest host)) c.host.2 tree := by
  obtain ⟨p, start, hmade⟩ := made_build hbuild
  have hrespects : Respects t b.grammar p (Collection.build b.grammar p) := by
    rcases ht with rfl | rfl
    · exact hmade.respects
    · exact hmade.respects.withoutDefaults
  obtain ⟨log, hlog⟩ := exists_run h.recording t m settled (host, [])
  rw [hlog] at hparse
  obtain ⟨tree, hvalue, haccepted⟩ := (held_start host settled log).run hfeeds hmade.ready hmade.ready.explored hrespects
    (fun k c' hk => hcalm k c' ((hlog k).trans hk)) hparse
  exact ⟨start, tree, hmade.start, hvalue, haccepted⟩

/-- If parsing comes to an end without an error, the tokens up to the end of the input are derived from the start symbol:
the productions that were reduced, read backwards, are a rightmost derivation, and each rule was called with the symbols
of its right side, in order, as they were read or made by the rules before. -/
theorem accepted_derivation (hbuild : Parser.build ds opts = (.ok b, logs))
    (ht : t = b.tables ∨ t = b.tables.withoutDefaults) (hfeeds : h.Feeds rest)
    (hparse : parse h t m n settled host = .finished v c) (hcalm : Undisturbed h t m settled host) :
    ∃ (start : String) (tree : History String V) (c' : Config String V (σ × Record String V E)),
      b.grammar.start = some start ∧ parse h.recording t m n settled (host, []) = .finished v c' ∧ c'.unrecorded = c ∧
      c'.host.2 = (calls tree).map Call.answered ∧ ReadUnder b.grammar tree ∧ type tree = start ∧
      tree.word = upToEnd (rest host) ∧ (symbol tree).value = v ∧
      Rightmost b.grammar.productions (b.grammar.isTerminal · = true) (reversed (calls tree)) [start]
        ((upToEnd (rest host)).map StackSymbol.type) ∧
      Derives (Lookahead.rulesOf b.grammar) [start] ((upToEnd (rest host)).map StackSymbol.type) := by
  rw [← parse_unrecorded] at hparse
  cases hrecorded : parse h.recording t m n settled (host, []) with
  | running c' =>
    rw [hrecorded] at hparse
    cases hparse
  | failed e c' =>
    rw [hrecorded] at hparse
    cases hparse
  | finished v' c' =>
    rw [hrecorded] at hparse
    obtain ⟨rfl, rfl⟩ := Progress.finished.inj hparse
    obtain ⟨start, tree, hstart, hvalue, haccepted⟩ := accepted_of_parse hbuild ht hfeeds hcalm hrecorded
    have hright := haccepted.proper.rightmost
    rw [haccepted.type, haccepted.word] at hright
    exact ⟨start, tree, c', hstart, rfl, rfl, haccepted.record, haccepted.proper, haccepted.type, haccepted.word, hvalue,
      hright, hright.derives⟩

end Accept

lemma feeds_behaviourHost (ds : Declarations Behaviour) : (behaviourHost ds).Feeds TokenFeed.rest where
  token f := by
    dsimp only [behaviourHost, TokenFeed.next]
    cases f.rest <;> rfl
  next f := by
    dsimp only [behaviourHost, TokenFeed.next]
    cases hf : f.rest with
    | nil => exact hf
    | cons t rest => rfl
  apply r f := by
    have hprint : ∀ (b : Bool) (line : String), (if b then f.print line else f).rest = f.rest := by
      intro b line
      cases b <;> rfl
    dsimp only [behaviourHost]
    split
    · unfold RuleAction.run
      split
      · rfl
      · rfl
      · dsimp only
        split
        · exact hprint _ _
        · exact hprint _ _
    · rfl

lemma eq_built {r : Except BuildError Built × Logs} (h : r.1.toOption.isSome = true) :
    r = (.ok (r.1.toOption.get h), r.2) := by
  rcases r with ⟨e | b, logs⟩
  · cases h
  · rfl

omit [DecidableEq S] [Vocabulary S] in
lemma Progress.exists_finished {r : Progress S V σ E} (h : r.isFinished = true) : ∃ v c, r = .finished v c := by
  cases r with
  | finished v c => exact ⟨v, c, rfl⟩
  | running c => cases h
  | failed e c => cases h

def numbered (type : String) (n : Int) : DatumSymbol :=
  { type := type, value := some (.int n), isToken := true }

def sums : Declarations Behaviour where
  file := "sums"
  attributes := [("tokens", .value (.list [.text "NUM", .text "PLUS"])),
    ("p_sum", .routine ⟨"p_sum", some "sum : sum PLUS sum\n | NUM", 1, 1, false, .rule {}⟩)]
  source := none

def sumTokens : List DatumSymbol :=
  [numbered "NUM" 1, numbered "PLUS" 2, numbered "NUM" 3, numbered "PLUS" 4, numbered "NUM" 5]

def sumsParser : Built :=
  (Parser.build sums {}).1.toOption.get (by decide +kernel)

theorem accepted_derivation_sums : ∃ (b : Built) (logs : Logs) (v : Option Datum) (c : Config String Datum TokenFeed),
    Parser.build sums {} = (.ok b, logs) ∧ b.table.shiftReduceConflicts.length = 1 ∧
    parse (behaviourHost sums) b.tables {} 20 false { rest := sumTokens } = .finished v c ∧
    Undisturbed (behaviourHost sums) b.tables {} false { rest := sumTokens } ∧
    ∃ (start : String) (tree : History String Datum) (c' : Config String Datum (TokenFeed × Record String Datum Fault)),
      b.grammar.start = some start ∧
      parse (behaviourHost sums).recording b.tables {} 20 false ({ rest := sumTokens }, []) = .finished v c' ∧
      c'.unrecorded = c ∧ c'.host.2 = (calls tree).map Call.answered ∧ ReadUnder b.grammar tree ∧ type tree = start ∧
      tree.word = upToEnd sumTokens ∧ (symbol tree).value = v ∧
      Rightmost b.grammar.productions (b.grammar.isTerminal · = true) (reversed (calls tree)) [start]
        ((upToEnd sumTokens).map StackSymbol.type) ∧
      Derives (Lookahead.rulesOf b.grammar) [start] ((upToEnd sumTokens).map StackSymbol.type) := by
  have hfinished : (parse (behaviourHost sums) sumsParser.tables {} 20 false
      { rest := sumTokens }).isFinished = true := by
    decide +kernel
  have hcalm : calmUpTo (behaviourHost sums) sumsParser.tables {} false
      { rest := sumTokens } 20 = true := by
    decide +kernel
  obtain ⟨v, c, hparse⟩ := Progress.exists_finished hfinished
  have hundisturbed := undisturbed_of_calmUpTo hfinished hcalm
  exact ⟨sumsParser, _, v, c, eq_built _, by decide +kernel, hparse, hundisturbed,
    accepted_derivation (b := sumsParser) (eq_built _) (.inl rfl) (feeds_behaviourHost sums) hparse hundisturbed⟩

def ended : Declarations Behaviour where
  file := "ended"
  attributes := [("tokens", .value (.list [.text "NUM", .text "$end"])),
    ("p_single", .routine ⟨"p_single", some "single : NUM", 1, 1, false, .rule {}⟩)]
  source := none

def endedTokens : List DatumSymbol :=
  [numbered "NUM" 1, numbered "$end" 2, numbered "NUM" 3]

omit [DecidableEq S] [Vocabulary S] in
lemma Derives.length_eq {rules : List (S × List S)} (hrules : ∀ r ∈ rules, r.2.length = 1) {u w : List S}
    (h : Derives rules u w) : w.length = u.length := by
  induction h with
  | refl => rfl
  | tail _ hstep ih =>
    cases hstep with
    | rule u v hrule =>
      have hlen := hrules _ hrule
      dsimp only at hlen
      rw [← ih, length_append, length_append, length_append, length_cons, hlen]
      omega

def endedParser : Built :=
  (Parser.build ended {}).1.toOption.get (by decide +kernel)

/-- Tokens that follow a token of the end mark's type are not read. -/
theorem accepted_beyond_end : ∃ (b : Built) (logs : Logs) (v : Option Datum) (c : Config String Datum TokenFeed),
    Parser.build ended {} = (.ok b, logs) ∧ (∀ s ∈ b.grammar.terminals.keys, b.grammar.isNonterminal s = false) ∧
    (∀ token ∈ endedTokens, b.grammar.isTerminal token.type = true) ∧
    parse (behaviourHost ended) b.tables {} 10 false { rest := endedTokens } = .finished v c ∧
    Undisturbed (behaviourHost ended) b.tables {} false { rest := endedTokens } ∧
    ¬ ∃ start, b.grammar.start = some start ∧
      Derives (Lookahead.rulesOf b.grammar) [start] (endedTokens.map StackSymbol.type) := by
  have hfinished : (parse (behaviourHost ended) endedParser.tables {} 10 false
      { rest := endedTokens }).isFinished = true := by
    decide +kernel
  have hcalm : calmUpTo (behaviourHost ended) endedParser.tables {} false
      { rest := endedTokens } 10 = true := by
    decide +kernel
  have hrules : ∀ r ∈ Lookahead.rulesOf endedParser.grammar, r.2.length = 1 := by
    decide +kernel
  obtain ⟨v, c, hparse⟩ := Progress.exists_finished hfinished
  refine ⟨endedParser, _, v, c, eq_built _, by decide +kernel, by decide +kernel, hparse,
    undisturbed_of_calmUpTo hfinished hcalm, ?_⟩
  rintro ⟨start, -, hderives⟩
  cases Derives.length_eq hrules hderives

end LispKit.Parser
