import LispKit.Proofs.Lisp.Longest
import LispKit.Proofs.Lisp.Numeral

/-! Scanning to the end: the tokens are those of the longest lexemes, in order. -/

namespace LispKit.Lisp

open Scanner Lexeme Lexicon List

namespace Lexeme

def content (w : List Char) : Option (Kind × Value) :=
  if isNumeral w then some (.number, .int (integer w))
  else if isTruth w then some (.bool, .bool (w == ['#', 't']))
  else if isWord w && (reserved.lookup (String.ofList w)).isNone then
    some (.identifier, .text (String.ofList w))
  else none

def token (w : List Char) (position : Nat) (d : Desk) : LispToken × Desk :=
  match content w with
  | some (kind, value) =>
    (⟨type w, .node (d.node kind value []).1, 1, position⟩, (d.node kind value []).2)
  | none => (⟨type w, .text (String.ofList w), 1, position⟩, d)

end Lexeme

def Desk.report (d : Desk) (c : Char) : Desk :=
  d.print ("Illegal character '" ++ String.singleton c ++ "'")

def nextOf : Nat → Desk → List Piece → Option LispToken × Desk × Nat × List Piece
  | p, d, [] => (none, d, p + 1, [])
  | p, d, .blank _ :: ps => nextOf (p + 1) d ps
  | p, d, .illegal c :: ps => nextOf (p + 1) (d.report c) ps
  | p, d, .lexeme w :: ps => (some (Lexeme.token w p d).1, (Lexeme.token w p d).2, p + w.length, ps)

def tokensOf : Nat → Desk → List Piece → List LispToken × Desk
  | _, d, [] => ([], d)
  | p, d, .blank _ :: ps => tokensOf (p + 1) d ps
  | p, d, .illegal c :: ps => tokensOf (p + 1) (d.report c) ps
  | p, d, .lexeme w :: ps =>
    let rest := tokensOf (p + w.length) (Lexeme.token w p d).2 ps
    ((Lexeme.token w p d).1 :: rest.1, rest.2)

def lexemes (ps : List Piece) : List (List Char) :=
  ps.filterMap fun
    | .lexeme w => some w
    | _ => none

variable {ps : List Piece}

lemma mem_lexemes {w : List Char} : w ∈ lexemes ps ↔ .lexeme w ∈ ps := by
  unfold lexemes
  rw [mem_filterMap]
  constructor
  · rintro ⟨x, hx, hw⟩
    cases x with
    | blank c => cases hw
    | illegal c => cases hw
    | lexeme v =>
      obtain rfl := Option.some.inj hw
      exact hx
  · exact fun hw => ⟨.lexeme w, hw, rfl⟩

def ShortNumerals (ps : List Piece) : Prop :=
  ∀ w ∈ lexemes ps, isNumeral w = true → digitCount w ≤ Text.digitLimit

instance (ps : List Piece) : Decidable (ShortNumerals ps) :=
  inferInstanceAs (Decidable (∀ w ∈ lexemes ps, isNumeral w = true → digitCount w ≤ Text.digitLimit))

lemma ShortNumerals.tail {p : Piece} (h : ShortNumerals (p :: ps)) : ShortNumerals ps := by
  intro w hw
  exact h w (mem_lexemes.mpr (mem_cons_of_mem p (mem_lexemes.mp hw)))

lemma ShortNumerals.head (h : ShortNumerals ps) :
    ∀ w ∈ (lexemes ps).head?, isNumeral w = true → digitCount w ≤ Text.digitLimit :=
  fun w hw => h w (mem_of_mem_head? hw)

structure Lexical (sc : LispScanner) : Prop where
  masters : sc.masters = [master]
  ignored : sc.ignored = " \t\n\r"
  onError : sc.onError = some (.always ⟨[.edit illegal, .skip 1], .drop⟩)
  onEnd : sc.onEnd = none
  literals : sc.rules.literals = "()+-*/><="
  line : sc.line = 1

lemma lexical_scanner : Lexical scanner :=
  ⟨scanner_masters, scanner_ignored, scanner_onError, scanner_onEnd, scanner_literals, scanner_line⟩

def placed (sc : LispScanner) (source : List Char) (position : Nat) : LispScanner :=
  { sc with text := some source, length := source.length, position := position }

lemma input_eq_placed (sc : LispScanner) (source : List Char) : sc.input source = placed sc source 0 := rfl

lemma lexical_placed {sc : LispScanner} (h : Lexical sc) (source : List Char) (position : Nat) :
    Lexical (placed sc source position) :=
  ⟨h.masters, h.ignored, h.onError, h.onEnd, h.literals, h.line⟩

section Rounds

variable {next : LispScanner → Desk → Scanner.Outcome Phrase Desk} {source rest w : List Char} {c : Char} {p q n : Nat}
  {d : Desk} {sc : LispScanner}

lemma contains_blank : " \t\n\r".contains c = isBlank c := by
  rw [String.contains_char_eq, Bool.eq_iff_iff]
  simp [isBlank, or_assoc]

lemma run_handler {edit : LispToken → Desk → Except Fault LispToken × Desk} {t t' : LispToken} {d' : Desk}
    (h : edit t d = (.ok t', d')) (sc : LispScanner) : (handler edit).run next t sc d = ⟨.ok (some t'), sc, d'⟩ := by
  simp [Handler.run, handler, Handler.always, Script.run, performAll, Effect.perform, h]

lemma number_lexeme (hw : isNumeral w = true) (hs : digitCount w ≤ Text.digitLimit) :
    number ⟨"NUMBER", .text (String.ofList w), 1, p⟩ d = (.ok (Lexeme.token w p d).1, (Lexeme.token w p d).2) := by
  have hc : content w = some (.number, .int (integer w)) := if_pos hw
  have ht : type w = "NUMBER" := if_pos hw
  simp only [number, lexeme, readInteger_numeral hw hs, withNode, Lexeme.token, hc, ht]

lemma bool_lexeme (hn : isNumeral w = false) (hw : isTruth w = true) :
    Lexicon.bool ⟨"BOOL", .text (String.ofList w), 1, p⟩ d = (.ok (Lexeme.token w p d).1, (Lexeme.token w p d).2) := by
  have hv : decide (String.ofList w = "#t") = (w == ['#', 't']) := by
    rcases isTruth_iff.mp hw with rfl | rfl
    · rfl
    · rfl
  have hc : content w = some (.bool, .bool (w == ['#', 't'])) := by
    rw [content, hn, hw]
    rfl
  have ht : type w = "BOOL" := by
    rw [type, hn, hw]
    rfl
  change withNode _ .bool (.bool (decide (String.ofList w = "#t"))) d = _
  rw [hv]
  simp only [withNode, Lexeme.token, hc, ht]

lemma identifier_lexeme (hn : isNumeral w = false) (ht : isTruth w = false)
    (hw : isWord w = true) : identifier ⟨"ID", .text (String.ofList w), 1, p⟩ d =
      (.ok (Lexeme.token w p d).1, (Lexeme.token w p d).2) := by
  have htype : type w = (reserved.lookup (String.ofList w)).getD "ID" := by
    rw [type, hn, ht, hw]
    rfl
  have hc : content w = if (reserved.lookup (String.ofList w)).isNone then
      some (.identifier, .text (String.ofList w)) else none := by
    rw [content, hn, ht, hw, Bool.true_and]
    rfl
  cases hl : reserved.lookup (String.ofList w) with
  | none =>
    rw [hl] at htype hc
    simp only [Option.getD_none] at htype
    simp only [Option.isNone_none, if_true] at hc
    simp only [identifier, lexeme, hl, withNode, Lexeme.token, hc, htype]
  | some type =>
    rw [hl] at htype hc
    simp only [Option.getD_some] at htype
    simp only [Option.isNone_some, Bool.false_eq_true, if_false] at hc
    simp only [identifier, lexeme, hl, Lexeme.token, hc, htype]

lemma indexOf?_natCast (n : Nat) : indexOf? n (p : Int) = some p := by
  simp [indexOf?]

lemma matched_target (hline : sc.line = 1) (hs : isNumeral w = true → digitCount w ≤ Text.digitLimit) (finish : Int)
    (ignored : String) :
    matched maker next w p finish (.ok (target w)) ignored sc d =
      .done ⟨.ok (some (Lexeme.token w p d).1), { sc with position := finish }, (Lexeme.token w p d).2⟩ := by
  unfold matched target
  by_cases hn : isNumeral w = true
  · rw [if_pos hn]
    simp only [hline, maker, run_handler (number_lexeme hn (hs hn)), afterHandler]
  · rw [if_neg hn]
    rw [Bool.not_eq_true] at hn
    by_cases ht : isTruth w = true
    · rw [if_pos ht]
      simp only [hline, maker, run_handler (bool_lexeme hn ht), afterHandler]
    · rw [if_neg ht]
      rw [Bool.not_eq_true] at ht
      by_cases hw : isWord w = true
      · rw [if_pos hw]
        simp only [hline, maker, run_handler (identifier_lexeme hn ht hw), afterHandler]
      · rw [Bool.not_eq_true] at hw
        have hc : content w = none := by
          rw [content, hn, ht, hw]
          rfl
        simp only [hw, Bool.false_eq_true, if_false, hline, maker, Lexeme.token, hc]

lemma illegal_reports (htext : sc.text = some source)
    (he : sc.onError = some (.always ⟨[.edit illegal, .skip 1], .drop⟩)) (hp : source.drop p = c :: rest) (ignored : String) :
    Scanner.illegal maker next c p ignored sc d =
      .more (p + 1 : Nat) ignored { sc with position := (p + 1 : Nat) } (d.report c) := by
  have htail : tailFrom source p = c :: rest := by
    rw [tailFrom, indexOf?_natCast, Option.getD_some, hp]
  have hne : ¬ (p : Int) + 1 = p := by omega
  simp only [Scanner.illegal, he, htext, Option.getD_some, htail, maker, Handler.run, Handler.always, Script.run, performAll,
    Effect.perform, Lexicon.illegal, lexeme, String.toList_ofList, take_succ_cons, take_zero, skip, hne, if_false,
    afterHandler, Int.natCast_add, Int.natCast_one, Desk.report, String.singleton_eq_ofList]

lemma round_blank (hp : source.drop p = c :: rest) (hc : isBlank c = true) :
    Scanner.round maker next ⟨source, source.length⟩ p " \t\n\r" (placed sc source q) d =
      .more (p + 1 : Nat) " \t\n\r" (placed sc source q) d := by
  simp only [Scanner.round, indexOf?_natCast, hp, contains_blank, hc, if_true]
  rfl

lemma round_matched (h : Lexical sc) (hp : source.drop p = c :: rest) (hc : isBlank c = false)
    (hw : longest (c :: rest) = some w) :
    Scanner.round maker next ⟨source, source.length⟩ p " \t\n\r" (placed sc source q) d =
      matched maker next w p (p + w.length) (.ok (target w)) " \t\n\r" (placed sc source q) d := by
  obtain ⟨-, -, hwr⟩ := longest_eq_some hw
  have ht : (c :: rest).take w.length = w := by
    rw [← hwr, take_left]
  simp only [Scanner.round, indexOf?_natCast, hp, contains_blank, hc, Bool.false_eq_true, if_false, (lexical_placed h source q).masters,
    Int.natCast_nonneg, if_true, Int.toNat_natCast, firstMatch_master, hw, Option.map_some, ht]

lemma round_lexeme (h : Lexical sc) (hp : source.drop p = c :: rest) (hc : isBlank c = false)
    (hw : longest (c :: rest) = some w) (hs : isNumeral w = true → digitCount w ≤ Text.digitLimit) :
    Scanner.round maker next ⟨source, source.length⟩ p " \t\n\r" (placed sc source q) d =
      .done ⟨.ok (some (Lexeme.token w p d).1), placed sc source (p + w.length), (Lexeme.token w p d).2⟩ := by
  rw [round_matched h hp hc hw]
  exact matched_target (lexical_placed h source q).line hs _ _

lemma not_literal (hw : longest (c :: rest) = none) : "()+-*/><=".contains c = false := by
  have hm : markLength (c :: rest) = none := by
    rw [longest_eq, Option.map_eq_none_iff] at hw
    simp only [Option.or_eq_none_iff] at hw
    exact hw.2.2.2
  rw [markLength] at hm
  by_contra hc
  have hmem : c ∈ ['(', ')', '+', '-', '*', '/', '>', '<', '='] := by
    rw [Bool.not_eq_false, String.contains_char_eq, decide_eq_true_eq] at hc
    exact hc
  have hmark : marks.any (·.1 == c) = true := by
    simp only [mem_cons, not_mem_nil, or_false] at hmem
    rcases hmem with rfl | rfl | rfl | rfl | rfl | rfl | rfl | rfl | rfl <;> rfl
  rw [if_pos hmark] at hm
  cases hm

lemma round_illegal (h : Lexical sc) (hp : source.drop p = c :: rest) (hc : isBlank c = false)
    (hw : longest (c :: rest) = none) :
    Scanner.round maker next ⟨source, source.length⟩ p " \t\n\r" (placed sc source q) d =
      .more (p + 1 : Nat) " \t\n\r" (placed sc source (p + 1)) (d.report c) := by
  simp only [Scanner.round, indexOf?_natCast, hp, contains_blank, hc, Bool.false_eq_true, if_false, (lexical_placed h source q).masters,
    Int.natCast_nonneg, if_true, Int.toNat_natCast, firstMatch_master, hw, Option.map_none, (lexical_placed h source q).literals,
    not_literal hw]
  exact illegal_reports rfl (lexical_placed h source q).onError hp _

lemma lt_length_of_drop (hp : source.drop p = c :: rest) : p < source.length ∧ source.drop (p + 1) = rest := by
  have hlen : (source.drop p).length = rest.length + 1 := by rw [hp, length_cons]
  rw [length_drop] at hlen
  refine ⟨by omega, ?_⟩
  have htail := congrArg (List.drop 1) hp
  rwa [drop_drop, drop_one, tail_cons] at htail

lemma rounds_atEnd (h : Lexical sc) (hn : 0 < n) (hp : source.length ≤ p) (ignored : String) :
    rounds maker next ⟨source, source.length⟩ n p ignored (placed sc source q) d =
      ⟨.ok none, placed sc source (p + 1), d⟩ := by
  obtain ⟨n, rfl⟩ := Nat.exists_eq_add_one_of_ne_zero (Nat.ne_of_gt hn)
  have hlt : ¬ (p : Int) < source.length := by omega
  rw [rounds, if_neg hlt, atEnd]
  split
  · rename_i he
    rw [(lexical_placed h source q).onEnd] at he
    cases he
  · rfl

lemma exists_step (hp : source.drop p = c :: rest) (hn : (c :: rest).length < n) :
    ∃ m, n = m + 1 ∧ rest.length < m ∧ p < source.length ∧ source.drop (p + 1) = rest := by
  obtain ⟨m, rfl⟩ := Nat.exists_eq_add_one_of_ne_zero (Nat.ne_zero_of_lt hn)
  exact ⟨m, rfl, Nat.lt_of_succ_lt_succ hn, lt_length_of_drop hp⟩

lemma rounds_eq (h : Lexical sc) {s : List Char} (hp : source.drop p = s) (hn : s.length < n)
    (hs : ∀ w ∈ (lexemes (pieces s)).head?, isNumeral w = true → digitCount w ≤ Text.digitLimit) :
    rounds maker next ⟨source, source.length⟩ n p " \t\n\r" (placed sc source q) d =
      ⟨.ok (nextOf p d (pieces s)).1, placed sc source (nextOf p d (pieces s)).2.2.1, (nextOf p d (pieces s)).2.1⟩ := by
  induction s using pieces.induct generalizing p q d n with
  | case1 =>
    have hlen : source.length ≤ p := drop_eq_nil_iff.mp hp
    rw [rounds_atEnd h (by omega) hlen, pieces, nextOf]
  | case2 c rest hb ih =>
    obtain ⟨n, rfl, hn, hlt, hp'⟩ := exists_step hp hn
    rw [pieces, if_pos hb] at hs ⊢
    rw [rounds, if_pos (by simpa using hlt), round_blank hp hb]
    exact ih hp' hn hs
  | case3 c rest hb w hw ih =>
    obtain ⟨n, rfl, -, hlt, -⟩ := exists_step hp hn
    rw [pieces, if_neg hb, hw] at hs ⊢
    rw [rounds, if_pos (by simpa using hlt),
      round_lexeme h hp (Bool.eq_false_iff.mpr hb) hw (hs w rfl), nextOf]
  | case4 c rest hb hw ih =>
    obtain ⟨n, rfl, hn, hlt, hp'⟩ := exists_step hp hn
    rw [pieces, if_neg hb, hw] at hs ⊢
    rw [rounds, if_pos (by simpa using hlt), round_illegal h hp (Bool.eq_false_iff.mpr hb) hw]
    exact ih hp' hn hs

end Rounds

section Tokens

variable {source s : List Char} {p p' : Nat} {d d' : Desk} {sc : LispScanner} {limits : Limits} {t : LispToken}

lemma token_placed (h : Lexical sc) (hp : source.drop p = s) (hn : s.length < limits.steps) (hd : 0 < limits.depth)
    (hs : ∀ w ∈ (lexemes (pieces s)).head?, isNumeral w = true → digitCount w ≤ Text.digitLimit) :
    Scanner.token maker limits (placed sc source p) d =
      ⟨.ok (nextOf p d (pieces s)).1, placed sc source (nextOf p d (pieces s)).2.2.1, (nextOf p d (pieces s)).2.1⟩ := by
  obtain ⟨depth, hdepth⟩ := Nat.exists_eq_add_one_of_ne_zero (Nat.ne_of_gt hd)
  rw [Scanner.token, hdepth, tokenWithin]
  simp only [(lexical_placed h source p).ignored]
  exact rounds_eq h hp hn hs

lemma nextOf_some {ps : List Piece} (hp : source.drop p = s) (h : nextOf p d (pieces s) = (some t, d', p', ps)) :
    ∃ s', source.drop p' = s' ∧ pieces s' = ps ∧ s'.length < s.length := by
  induction s using pieces.induct generalizing p d with
  | case1 =>
    rw [pieces, nextOf] at h
    cases h
  | case2 c rest hb ih =>
    rw [pieces, if_pos hb, nextOf] at h
    obtain ⟨s', hs', hps, hlen⟩ := ih (lt_length_of_drop hp).2 h
    exact ⟨s', hs', hps, by rw [length_cons]; omega⟩
  | case3 c rest hb w hw ih =>
    obtain ⟨-, hne, -⟩ := longest_eq_some hw
    obtain ⟨n, hn⟩ := Nat.exists_eq_add_one_of_ne_zero (by simpa using hne : w.length ≠ 0)
    rw [pieces, if_neg hb, hw, nextOf] at h
    obtain ⟨-, -, rfl, rfl⟩ : _ ∧ _ ∧ p + w.length = p' ∧ _ = ps := by simpa using h
    refine ⟨rest.drop (w.length - 1), ?_, rfl, ?_⟩
    · rw [← drop_drop, hp, hn, drop_succ_cons, Nat.add_sub_cancel]
    · rw [length_drop, length_cons]
      omega
  | case4 c rest hb hw ih =>
    rw [pieces, if_neg hb, hw, nextOf] at h
    obtain ⟨s', hs', hps, hlen⟩ := ih (lt_length_of_drop hp).2 h
    exact ⟨s', hs', hps, by rw [length_cons]; omega⟩

lemma tokensOf_eq (p : Nat) (d : Desk) (ps : List Piece) :
    tokensOf p d ps = match nextOf p d ps with
      | (none, d', _, _) => ([], d')
      | (some t, d', p', ps') => (t :: (tokensOf p' d' ps').1, (tokensOf p' d' ps').2) := by
  induction ps generalizing p d with
  | nil => rfl
  | cons x ps ih =>
    cases x with
    | blank c => exact ih (p + 1) d
    | illegal c => exact ih (p + 1) (d.report c)
    | lexeme w => rfl

lemma short_nextOf {ps ps' : List Piece} (hs : ShortNumerals ps)
    (h : nextOf p d ps = (some t, d', p', ps')) : ShortNumerals ps' := by
  induction ps generalizing p d with
  | nil => cases h
  | cons x ps ih =>
    cases x with
    | blank c => exact ih hs.tail h
    | illegal c => exact ih hs.tail h
    | lexeme w =>
      obtain ⟨-, -, -, rfl⟩ : _ ∧ _ ∧ _ ∧ ps = ps' := by simpa [nextOf] using h
      exact hs.tail

lemma tokens_placed (h : Lexical sc) (hd : 0 < limits.depth) (n : Nat) (hp : source.drop p = s)
    (hn : s.length < n) (hl : s.length < limits.steps) (hs : ShortNumerals (pieces s)) :
    ∃ q, Scanner.tokens maker limits n (placed sc source p) d =
      ((tokensOf p d (pieces s)).1, .ok (), placed sc source q, (tokensOf p d (pieces s)).2) := by
  induction n generalizing p d s with
  | zero => omega
  | succ n ih =>
    rw [Scanner.tokens, token_placed h hp hl hd hs.head, tokensOf_eq]
    rcases hnext : nextOf p d (pieces s) with ⟨t, d', p', ps⟩
    cases t with
    | none => exact ⟨p', rfl⟩
    | some t =>
      obtain ⟨s', hp', rfl, hlen⟩ := nextOf_some hp hnext
      obtain ⟨q, hq⟩ := ih (d := d') hp' (by omega) (by omega) (short_nextOf hs hnext)
      refine ⟨q, ?_⟩
      simp only [hq]

end Tokens

lemma isLexeme_of_mem_pieces {s w : List Char} (h : .lexeme w ∈ pieces s) : isLexeme w = true ∧ w ≠ [] := by
  induction s using pieces.induct with
  | case1 =>
    rw [pieces] at h
    cases h
  | case2 c rest hb ih =>
    rw [pieces, if_pos hb] at h
    cases h with
    | tail _ h => exact ih h
  | case3 c rest hb v hv ih =>
    rw [pieces, if_neg hb, hv] at h
    cases h with
    | head => exact ⟨(longest_eq_some hv).1, (longest_eq_some hv).2.1⟩
    | tail _ h => exact ih h
  | case4 c rest hb hn ih =>
    rw [pieces, if_neg hb, hn] at h
    cases h with
    | tail _ h => exact ih h

@[simp] lemma Lexeme.type_token (w : List Char) (p : Nat) (d : Desk) : (Lexeme.token w p d).1.type = type w := by
  unfold Lexeme.token
  split <;> rfl

@[simp] lemma Lexeme.position_token (w : List Char) (p : Nat) (d : Desk) : (Lexeme.token w p d).1.position = p := by
  unfold Lexeme.token
  split <;> rfl

lemma types_tokensOf (p : Nat) (d : Desk) (ps : List Piece) :
    (tokensOf p d ps).1.map (·.type) = (lexemes ps).map Lexeme.type := by
  induction ps generalizing p d with
  | nil => rfl
  | cons x ps ih =>
    cases x with
    | blank c => exact ih (p + 1) d
    | illegal c => exact ih (p + 1) (d.report c)
    | lexeme w =>
      rw [tokensOf, map_cons, ih, Lexeme.type_token]
      rfl

lemma position_le_of_mem {t : LispToken} {p : Nat} {d : Desk} (h : t ∈ (tokensOf p d ps).1) :
    (p : Int) ≤ t.position := by
  induction ps generalizing p d with
  | nil => cases h
  | cons x ps ih =>
    cases x with
    | blank c =>
      have := ih h
      omega
    | illegal c =>
      have := ih h
      omega
    | lexeme w =>
      cases h with
      | head => exact Int.le_of_eq (Lexeme.position_token w p d).symm
      | tail _ h =>
        have := ih h
        omega

lemma pairwise_tokensOf (p : Nat) (d : Desk) (hw : ∀ w, .lexeme w ∈ ps → w ≠ []) :
    (tokensOf p d ps).1.Pairwise fun t u => t.position < u.position := by
  induction ps generalizing p d with
  | nil => exact .nil
  | cons x ps ih =>
    have ih := fun p d => ih p d fun w hm => hw w (mem_cons_of_mem x hm)
    cases x with
    | blank c => exact ih (p + 1) d
    | illegal c => exact ih (p + 1) (d.report c)
    | lexeme w =>
      have hpos : 0 < w.length := length_pos_iff.mpr (hw w (by simp))
      rw [tokensOf, pairwise_cons]
      refine ⟨?_, ih _ _⟩
      intro t ht
      have := position_le_of_mem ht
      rw [Lexeme.position_token]
      omega

lemma type_word {w : List Char} (hw : isWord w = true) :
    Lexeme.type w ≠ "ID" ↔ String.ofList w ∈ reserved.map Prod.fst := by
  have hn : isNumeral w = false := by
    cases w with
    | nil => rfl
    | cons c w =>
      rw [isWord, Bool.and_eq_true] at hw
      rw [isNumeral_cons (letter_ne hw.1 rfl), isPositive, isNonzero_eq_false_of_isLetter hw.1, Bool.false_and,
        Bool.or_false, beq_false_of_ne (letter_ne hw.1 rfl), Bool.false_and]
  have ht : isTruth w = false := by
    by_contra ht
    rcases isTruth_iff.mp (by simpa using ht) with rfl | rfl
    · cases hw
    · cases hw
  have htypes : ∀ r ∈ reserved, r.2 ≠ "ID" := by decide
  rw [Lexeme.type, hn, ht, hw]
  simp only [Bool.false_eq_true, if_false, if_true]
  cases hl : reserved.lookup (String.ofList w) with
  | none =>
    rw [lookup_eq_none_iff] at hl
    simp only [Option.getD_none, ne_eq, not_true_eq_false, false_iff, mem_map, not_exists, not_and]
    intro r hr he
    simpa [he] using hl r hr
  | some type =>
    obtain ⟨l₁, l₂, hr, -⟩ := lookup_eq_some_iff.mp hl
    have hmem : (String.ofList w, type) ∈ reserved := by simp [hr]
    simp only [Option.getD_some]
    exact iff_of_true (htypes _ hmem) (mem_map.mpr ⟨_, hmem, rfl⟩)

/-- Scanning a source to its end yields a token for each longest lexeme and reports each illegal
character. The pieces are the whole source, the positions grow, and the words with a type of their own are
the reserved ones. -/
theorem scan_maximal_munch (source : String) (d : Desk) (limits : Limits)
    (hsteps : source.length < limits.steps) (hdepth : 0 < limits.depth)
    (hshort : ShortNumerals (pieces source.toList)) :
    ∃ ts d' sc,
      Scanner.tokens maker limits limits.steps (scanner.input source.toList) d = (ts, .ok (), sc, d') ∧
      (ts, d') = tokensOf 0 d (pieces source.toList) ∧
      (pieces source.toList).flatMap Piece.text = source.toList ∧
      (ts.Pairwise fun t u => t.position < u.position) ∧
      ts.map (·.type) = (lexemes (pieces source.toList)).map Lexeme.type ∧
      ∀ w ∈ lexemes (pieces source.toList), isWord w = true →
        (Lexeme.type w ≠ "ID" ↔ String.ofList w ∈ reserved.map Prod.fst) := by
  have hlen : source.toList.length < limits.steps := by rwa [String.length_toList]
  have hstart : source.toList.drop 0 = source.toList := drop_zero
  obtain ⟨q, hq⟩ := tokens_placed (d := d) lexical_scanner hdepth limits.steps hstart hlen hlen hshort
  rw [input_eq_placed]
  refine ⟨_, _, _, hq, rfl, flatMap_text_pieces _, ?_, types_tokensOf 0 d _, fun w _ => type_word⟩
  exact pairwise_tokensOf 0 d fun w hw => (isLexeme_of_mem_pieces hw).2

theorem scan_maximal_munch_mixed :
    ∃ ts d' sc, Scanner.tokens maker ⟨20, 1⟩ 20 (scanner.input "(-05 if-x@".toList) {} = (ts, .ok (), sc, d') ∧
      (ts, d') = tokensOf 0 {} (pieces "(-05 if-x@".toList) ∧
      ts.map (·.type) = ["LPAREN", "MINUS", "NUMBER", "NUMBER", "ID"] := by
  have hp : pieces "(-05 if-x@".toList = [.lexeme ['('], .lexeme ['-'], .lexeme ['0'], .lexeme ['5'], .blank ' ',
      .lexeme ['i', 'f', '-', 'x'], .illegal '@'] := by
    cbv
  have hs : ShortNumerals (pieces "(-05 if-x@".toList) := by
    rw [hp]
    decide
  obtain ⟨ts, d', sc, h, heq, -, -, htypes, -⟩ := scan_maximal_munch "(-05 if-x@" {} ⟨20, 1⟩ (by decide) (by decide) hs
  refine ⟨ts, d', sc, h, heq, ?_⟩
  rw [htypes, hp]
  decide

end LispKit.Lisp
