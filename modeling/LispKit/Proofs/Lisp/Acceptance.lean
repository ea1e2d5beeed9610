import LispKit.Lisp.Program
import LispKit.Proofs.Lisp.Reading

/-! Reading accepts exactly the sources that the grammar derives, and it undoes printing. -/

namespace LispKit.Lisp

open Lexeme Reading ParseTree Lisp.Derivation List

section Rendering

/-- A text of lexemes: after each one the text ends or a blank follows, and blanks may stand anywhere between. -/
inductive Rendered : List (List Char) → List Char → Prop
  | nil : Rendered [] []
  | blank {c : Char} {ws : List (List Char)} {s : List Char} : isBlank c = true → Rendered ws s → Rendered ws (c :: s)
  | lexeme {w : List Char} {ws : List (List Char)} {s : List Char} : (∀ c ∈ s.head?, isBlank c = true) →
      Rendered ws s → Rendered (w :: ws) (w ++ s)

def spaced (ws : List (List Char)) : List Char :=
  ws.flatMap (· ++ [' '])

lemma rendered_spaced (ws : List (List Char)) : Rendered ws (spaced ws) := by
  induction ws with
  | nil => exact .nil
  | cons w ws ih =>
    rw [spaced, flatMap_cons, append_assoc]
    exact .lexeme (by simp [isBlank]) (.blank rfl ih)

lemma mem_lexeme {w : List Char} (h : isLexeme w = true) {c : Char} (hc : c ∈ w) :
    isWordChar c = true ∨ c ∈ ['#', '+', '*', '/', '>', '<', '=', '(', ')'] := by
  simp only [isLexeme, Bool.or_eq_true] at h
  rcases h with ((hn | ht) | hw) | hm
  · obtain ⟨ds, -, hds, hw⟩ := digits_of_isNumeral hn
    have hc : c = '-' ∨ c ∈ ds := by
      rcases hw with rfl | rfl
      · exact mem_cons.mp hc
      · exact .inr hc
    rcases hc with rfl | hc
    · exact .inl rfl
    · left
      rw [isWordChar, all_eq_true.mp hds c hc, Bool.true_or, Bool.or_true]
  · rcases isTruth_iff.mp ht with rfl | rfl
    · rcases mem_cons.mp hc with rfl | hc
      · exact .inr (by decide)
      · obtain rfl := mem_singleton.mp hc
        exact .inl rfl
    · rcases mem_cons.mp hc with rfl | hc
      · exact .inr (by decide)
      · obtain rfl := mem_singleton.mp hc
        exact .inl rfl
  · cases w with
    | nil => cases hc
    | cons a w =>
      rw [isWord, Bool.and_eq_true] at hw
      left
      rcases mem_cons.mp hc with rfl | hc
      · rw [isWordChar, hw.1, Bool.true_or]
      · exact all_eq_true.mp hw.2 c hc
  · have hall : ∀ m ∈ marks, isWordChar m.1 = true ∨ m.1 ∈ ['#', '+', '*', '/', '>', '<', '=', '(', ')'] := by decide
    obtain ⟨m, hm, heq⟩ := any_eq_true.mp hm
    rw [beq_iff_eq.mp heq, mem_singleton] at hc
    exact hc ▸ hall m hm

lemma isBlank_eq_false_of_mem {w : List Char} (h : isLexeme w = true) {c : Char} (hc : c ∈ w) : isBlank c = false := by
  by_contra hb
  rw [Bool.not_eq_false] at hb
  have hblank : c = ' ' ∨ c = '\t' ∨ c = '\n' ∨ c = '\r' := by
    simpa [isBlank, or_assoc] using hb
  have hmem := mem_lexeme h hc
  rcases hblank with rfl | rfl | rfl | rfl <;> exact absurd hmem (by decide)

lemma longest_append {w s : List Char} (hw : isLexeme w = true) (hs : ∀ c ∈ s.head?, isBlank c = true) :
    longest (w ++ s) = some w := by
  have htake : (w ++ s).take w.length = w := take_left
  have hlong : ∀ v, v <+: w ++ s → isLexeme v = true → v.length ≤ w.length := by
    intro v hv hl
    by_contra hlt
    obtain ⟨c, hc⟩ : ∃ c, s.head? = some c := by
      cases s with
      | nil =>
        have := hv.length_le
        rw [append_nil] at this
        omega
      | cons c s => exact ⟨c, rfl⟩
    have hmem : c ∈ v := by
      obtain ⟨u, hu⟩ := hv
      have hget : (v ++ u)[w.length]? = some c := by
        rw [hu, getElem?_append_right (Nat.le_refl _), Nat.sub_self, ← head?_eq_getElem?, hc]
      rw [getElem?_append_left (by omega)] at hget
      exact mem_of_getElem? hget
    have := isBlank_eq_false_of_mem hl hmem
    rw [hs c hc] at this
    cases this
  have hmax := longest_eq_take (s := w ++ s) (m := w.length) (by simp) (by rwa [htake]) hlong
  rwa [htake] at hmax

lemma lexemes_rendered {ws : List (List Char)} {s : List Char} (h : Rendered ws s) (hws : ∀ w ∈ ws, isLexeme w = true) :
    lexemes (pieces s) = ws ∧ ∀ c, .illegal c ∉ pieces s := by
  induction h with
  | nil =>
    rw [pieces]
    exact ⟨rfl, by simp⟩
  | blank hb _ ih =>
    rw [pieces, if_pos hb]
    obtain ⟨hlex, hill⟩ := ih hws
    exact ⟨hlex, by simpa using hill⟩
  | @lexeme w ws s hs _ ih =>
    obtain ⟨hlex, hill⟩ := ih fun v hv => hws v (mem_cons_of_mem w hv)
    have hw := hws w mem_cons_self
    cases w with
    | nil => cases hw
    | cons c w =>
      have hb : ¬ isBlank c = true := by
        rw [isBlank_eq_false_of_mem hw mem_cons_self]
        exact Bool.false_ne_true
      have hlong := longest_append hw hs
      rw [cons_append] at hlong ⊢
      rw [pieces, if_neg hb, hlong]
      simp only [length_cons, Nat.add_sub_cancel, drop_left]
      exact ⟨congrArg _ hlex, by simpa using hill⟩

lemma Program.short_rendered {p : Program} {s : List Char} (h : Rendered p.lexemes s) : ShortNumerals (pieces s) := by
  intro w hw
  rw [(lexemes_rendered h p.isLexeme_of_mem).1] at hw
  exact p.short_lexemes w hw

lemma reported_of_legal {ps : List Piece} (h : ∀ c, .illegal c ∉ ps) (out : String) : reported out ps = out := by
  induction ps with
  | nil => rfl
  | cons x ps ih =>
    cases x with
    | illegal c => exact absurd mem_cons_self (h c)
    | blank c => exact ih fun c hc => h c (mem_cons_of_mem _ hc)
    | lexeme w => exact ih fun c hc => h c (mem_cons_of_mem _ hc)

end Rendering

section Reading

variable {source : String} {limits : Limits} {d : Desk} {c : Parser.Config Symbol Phrase Reading} {v : Option Phrase}

lemma length_lexemes_le (s : List Char) : (lexemes (pieces s)).length ≤ s.length := by
  induction s using pieces.induct with
  | case1 =>
    rw [pieces]
    exact Nat.le_refl 0
  | case2 c rest hb ih =>
    rw [pieces, if_pos hb, length_cons]
    exact Nat.le_succ_of_le ih
  | case3 c rest hb w hw ih =>
    rw [pieces, if_neg hb, hw, length_cons]
    have hdrop : (rest.drop (w.length - 1)).length ≤ rest.length := by
      rw [length_drop]
      omega
    exact Nat.succ_le_succ (ih.trans hdrop)
  | case4 c rest hb hn ih =>
    rw [pieces, if_neg hb, hn, length_cons]
    exact Nat.le_succ_of_le ih

lemma before_source (hsteps : source.length < limits.steps) (hshort : ShortNumerals (pieces source.toList))
    (hd : d.verbose = false) : Before limits (reported d.out (pieces source.toList)) ⟨scanner.input source.toList, d⟩
      (some (lexemes (pieces source.toList))) := by
  rw [input_eq_placed]
  refine .pieces lexical_scanner drop_zero ?_ hshort hd rfl
  rwa [String.length_toList]

section

variable (hsteps : 14 * source.length + 4 ≤ limits.steps)

include hsteps

lemma steps_enough : weights.cost * (lexemes (pieces source.toList)).length + weights.lift + 1 ≤ limits.steps := by
  have hlen := length_lexemes_le source.toList
  rw [String.length_toList] at hlen
  change 14 * _ + 3 + 1 ≤ _
  omega

lemma read_finishes (hdepth : 0 < limits.depth)
    (hshort : ShortNumerals (pieces source.toList)) (hd : d.verbose = false) :
    ∃ v c, read limits tables {} scanner d source = .finished v c ∧ c.host.desk.verbose = false ∧
      c.host.desk.out = reported d.out (pieces source.toList) ∧
      (c.host.desk.valid = true → Derives productions [.program] ((lexemes (pieces source.toList)).map symbol)) := by
  have hlt : source.length < limits.steps := by omega
  have hbefore := before_source hlt hshort hd
  obtain ⟨v, c, hread, hend, hvalid⟩ : ∃ v c, read limits tables {} scanner d source = .finished v c ∧ _ :=
    Parser.parse_finishes (Q := surroundings limits _ hdepth) tables_steady weights hbefore (steps_enough hsteps)
  rw [rulesOf_grammar] at hvalid
  exact ⟨v, c, hread, hend.verbose, hend.out_eq, hvalid⟩

lemma read_program (hdepth : 0 < limits.depth)
    (hshort : ShortNumerals (pieces source.toList)) (hd : d.verbose = false) {p : Program}
    (hp : p.lexemes = lexemes (pieces source.toList)) :
    ∃ v n c, read limits tables {} scanner d source = .finished v c ∧ treeOf v = some n ∧ n.bare = p.node ∧
      c.host.desk.valid = d.valid := by
  have hlt : source.length < limits.steps := by omega
  have hbefore := before_source hlt hshort hd
  obtain ⟨v, c, hread, hden, hvalid⟩ : ∃ v c, read limits tables {} scanner d source = .finished (some v) c ∧ _ :=
    Parser.parse_tree (Q := surroundings limits _ hdepth) tables_steady tables_decided weights hbefore
      (steps_enough hsteps) p.sound_derivation.fits p.sound_derivation.root (p.word_derivation.trans hp)
  obtain ⟨n, rfl, hn⟩ := Phrase.bare_eq_node (p.yields_derivation v hden)
  exact ⟨_, n, c, hread, rfl, hn, hvalid⟩

end

lemma isLexeme_of_mem {s w : List Char} (h : w ∈ lexemes (pieces s)) : isLexeme w = true :=
  (isLexeme_of_mem_pieces (mem_lexemes.mp h)).1

lemma read_valid (hsteps : 14 * source.length + 4 ≤ limits.steps) (hdepth : 0 < limits.depth)
    (hshort : ShortNumerals (pieces source.toList)) (hd : d.verbose = false)
    (hread : read limits tables {} scanner d source = .finished v c) (hvalid : c.host.desk.valid = true) :
    ∃ (p : Program) (n : Node), p.lexemes = lexemes (pieces source.toList) ∧ treeOf v = some n ∧ n.bare = p.node := by
  obtain ⟨v', c', hread', -, -, hder⟩ := read_finishes hsteps hdepth hshort hd
  obtain ⟨rfl, rfl⟩ : v = v' ∧ c = c' := by
    rw [hread] at hread'
    injection hread' with hv hc
    exact ⟨hv, hc⟩
  obtain ⟨p, hp⟩ := exists_program (fun w hw => isLexeme_of_mem hw) hshort (hder hvalid)
  obtain ⟨v', n, c', hread', htree, hn, -⟩ := read_program hsteps hdepth hshort hd hp
  rw [hread] at hread'
  injection hread' with hv _
  exact ⟨p, n, hp, hv ▸ htree, hn⟩

lemma out_tokensOf (p : Nat) (d : Desk) (ps : List Piece) : (tokensOf p d ps).2.out = reported d.out ps := by
  induction ps generalizing p d with
  | nil => rfl
  | cons x ps ih =>
    cases x with
    | blank c => exact ih (p + 1) d
    | illegal c => exact ih (p + 1) (d.report c)
    | lexeme w =>
      obtain ⟨i, hi⟩ := token_desk w p d
      rw [tokensOf, ih, hi]
      rfl

lemma Running.run_bind {α β : Type} (x : Running α) (f : α → Running β) (s : Run) :
    (x >>= f).run.run s = match x.run.run s with
      | (.ok a, s') => (f a).run.run s'
      | (.error e, s') => (.error e, s') := by
  rw [ExceptT.run_bind, StateT.run_bind]
  change (match x.run.run s with
    | (a, s') => _) = _
  rcases x.run.run s with ⟨_ | a, s'⟩
  · rfl
  · rfl

lemma Running.run_program (limits : Limits) (source : String) (s : Run) :
    (program limits false source).run.run s = match (readSource limits source).run.run s with
      | (.ok tree, s') => (if s'.desk.valid then evaluate limits tree else print "syntax error").run.run s'
      | (.error e, s') => (.error e, s') := by
  unfold program
  simp only [Bool.false_eq_true, if_false, run_bind]
  rcases (readSource limits source).run.run s with ⟨_ | tree, s'⟩
  · rfl
  · change (if s'.desk.valid then evaluate limits tree >>= fun _ => pure () else print "syntax error").run.run s' =
      (if s'.desk.valid then evaluate limits tree else print "syntax error").run.run s'
    rw [bind_pure_unit]

lemma Running.run_readSource {limits : Limits} {source : String} {s : Run}
    (hread : read limits tables {} s.scanner s.desk source = .finished v c) :
    (readSource limits source).run.run s = (.ok (treeOf v), { s with scanner := c.host.scanner, desk := c.host.desk }) := by
  have hget : (get : Running Run).run.run s = (.ok s, s) := rfl
  simp only [readSource, run_bind, hget, hread]
  rfl

lemma runProgram_eq (hread : read limits tables {} scanner {} source = .finished v c) (store : Store) :
    runProgram limits false source store =
      match (if c.host.desk.valid then Running.evaluate limits (treeOf v) else Running.print "syntax error").run.run
        { desk := c.host.desk, scanner := c.host.scanner, store := store } with
      | (.ok (), run) => ⟨none, run⟩
      | (.error e, run) => ⟨some e, run⟩ := by
  unfold runProgram
  rw [Running.run_program, Running.run_readSource hread]
  dsimp only
  generalize (if c.host.desk.valid then _ else _ : Running Unit).run.run _ = r
  rcases r with ⟨_ | _, run⟩
  · rfl
  · rfl

lemma runProgram_invalid (hread : read limits tables {} scanner {} source = .finished v c)
    (hvalid : c.host.desk.valid = false) (store : Store) : runProgram limits false source store =
      ⟨none, { desk := c.host.desk.print "syntax error", scanner := c.host.scanner, store := store }⟩ := by
  rw [runProgram_eq hread, hvalid]
  rfl

end Reading

/-- Reading comes to an end on every source. What it accepts are the sources whose tokens are derived from the
grammar, and no other source is evaluated. -/
theorem read_accepts_grammar (source : String) (limits : Limits) (hsteps : 14 * source.length + 4 ≤ limits.steps)
    (hdepth : 0 < limits.depth) (hshort : ShortNumerals (pieces source.toList)) :
    ∃ v c ts sc d, read limits tables {} scanner {} source = .finished v c ∧
      Scanner.tokens maker limits limits.steps (scanner.input source.toList) {} = (ts, .ok (), sc, d) ∧
      (c.host.desk.valid = true ↔ Derives productions [.program] (ts.map fun t => .ofTokenType t.type)) ∧
      (¬ Derives productions [.program] (ts.map fun t => .ofTokenType t.type) → ∀ store : Store, ∃ run,
        runProgram limits false source store = ⟨none, run⟩ ∧ run.desk.out = d.out ++ "syntax error\n" ∧
        run.store = store) := by
  obtain ⟨v, c, hread, -, hout, hder⟩ := read_finishes (d := {}) hsteps hdepth hshort rfl
  have hlt : source.toList.length < limits.steps := by
    rw [String.length_toList]
    omega
  obtain ⟨q, htokens⟩ := tokens_placed (d := {}) lexical_scanner hdepth limits.steps drop_zero hlt hlt hshort
  have hsymbols : ((tokensOf 0 {} (pieces source.toList)).1.map fun t => Symbol.ofTokenType t.type) =
      (lexemes (pieces source.toList)).map symbol := by
    have htypes := congrArg (List.map Symbol.ofTokenType) (types_tokensOf 0 {} (pieces source.toList))
    rwa [List.map_map, List.map_map] at htypes
  have hvalid : c.host.desk.valid = true ↔
      Derives productions [.program] ((tokensOf 0 {} (pieces source.toList)).1.map fun t => .ofTokenType t.type) := by
    rw [hsymbols]
    refine ⟨hder, fun h => ?_⟩
    obtain ⟨p, hp⟩ := exists_program (fun w hw => isLexeme_of_mem hw) hshort h
    obtain ⟨v', n, c', hread', -, -, hvalid⟩ := read_program (d := {}) hsteps hdepth hshort rfl hp
    rw [hread] at hread'
    injection hread' with _ hc
    rw [hc, hvalid]
  refine ⟨v, c, _, _, _, hread, htokens, hvalid, ?_⟩
  intro hnot store
  rw [← hvalid, Bool.not_eq_true] at hnot
  refine ⟨_, runProgram_invalid hread hnot store, ?_, rfl⟩
  rw [out_tokensOf, ← hout]
  exact String.append_assoc

theorem read_accepts_grammar_malformed :
    ∃ v c ts sc d, read ⟨200, 1⟩ tables {} scanner {} "7) @(if" = .finished v c ∧
      Scanner.tokens maker ⟨200, 1⟩ 200 (scanner.input "7) @(if".toList) {} = (ts, .ok (), sc, d) ∧
      (c.host.desk.valid = true ↔ Derives productions [.program] (ts.map fun t => .ofTokenType t.type)) := by
  have hp : pieces "7) @(if".toList = [.lexeme ['7'], .lexeme [')'], .blank ' ', .illegal '@', .lexeme ['('],
      .lexeme ['i', 'f']] := by
    cbv
  have hs : ShortNumerals (pieces "7) @(if".toList) := by
    rw [hp]
    decide
  obtain ⟨v, c, ts, sc, d, hread, htokens, hvalid, -⟩ :=
    read_accepts_grammar "7) @(if" ⟨200, 1⟩ (by decide) (by decide) hs
  exact ⟨v, c, ts, sc, d, hread, htokens, hvalid⟩

/-- Reading undoes printing: every text of a program, with blanks between its lexemes, is valid and read as the
tree of the program, up to the numbers of the nodes. -/
theorem read_rendered (p : Program) (source : String) (h : Rendered p.lexemes source.toList) (limits : Limits)
    (hsteps : 14 * source.length + 4 ≤ limits.steps) (hdepth : 0 < limits.depth) :
    ∃ v n c, read limits tables {} scanner {} source = .finished v c ∧ c.host.desk.valid = true ∧
      c.host.desk.out = "" ∧ treeOf v = some n ∧ n.bare = p.node := by
  obtain ⟨hlex, hill⟩ := lexemes_rendered h p.isLexeme_of_mem
  have hshort := Program.short_rendered h
  obtain ⟨v, n, c, hread, htree, hn, hvalid⟩ := read_program (d := {}) hsteps hdepth hshort rfl hlex.symm
  obtain ⟨v', c', hread', -, hout, -⟩ := read_finishes (d := {}) hsteps hdepth hshort rfl
  refine ⟨v, n, c, hread, hvalid, ?_, htree, hn⟩
  rw [hread] at hread'
  injection hread' with _ hc
  rw [hc, hout, reported_of_legal hill]

def successorProgram : Program :=
  let f : Name := ⟨['f'], rfl, by decide⟩
  let x : Name := ⟨['x'], rfl, by decide⟩
  { first := .define f (.function [x] (.chain .plus (by decide) (.name x) (.number ⟨1, (digitCount_numeral_le 1).mp (by decide)⟩) []))
    rest := [.printNumber (.call f [.number ⟨41, (digitCount_numeral_le 41).mp (by decide)⟩])] }

def successorSource : String :=
  "( define f ( fun ( x ) ( + x 1 ) ) ) ( print-num ( f 41 ) ) "

lemma rendered_successor : Rendered successorProgram.lexemes successorSource.toList := by
  have hsource : successorSource.toList = spaced successorProgram.lexemes := by decide
  rw [hsource]
  exact rendered_spaced _

theorem read_rendered_successor :
    ∃ v n c, read ⟨1000, 1⟩ tables {} scanner {} successorSource = .finished v c ∧ c.host.desk.valid = true ∧
      treeOf v = some n ∧ n.bare = successorProgram.node := by
  obtain ⟨v, n, c, hread, hvalid, -, htree, hn⟩ :=
    read_rendered successorProgram successorSource rendered_successor ⟨1000, 1⟩ (by decide) (by decide)
  exact ⟨v, n, c, hread, hvalid, htree, hn⟩

end LispKit.Lisp
