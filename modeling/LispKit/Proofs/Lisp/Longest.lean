import LispKit.Proofs.Lisp.Lexicon

/-! The first rule that matches takes the longest lexeme. -/

namespace LispKit.Lisp

open Scanner Pattern Lexeme List

namespace Lexeme

def IsLongest (test : List Char → Bool) (s : List Char) : Option Nat → Prop
  | none => ∀ v, v <+: s → test v = false
  | some n => n ≤ s.length ∧ test (s.take n) = true ∧ ∀ v, v <+: s → test v = true → v.length ≤ n

def positiveLength : List Char → Option Nat
  | [] => none
  | c :: rest => if isNonzero c then some ((rest.takeWhile isDigit).length + 1) else none

def negativeLength : List Char → Option Nat
  | [] => none
  | c :: rest => if c == '-' then (positiveLength rest).map (· + 1) else none

def numeralLength (s : List Char) : Option Nat :=
  match s with
  | '0' :: _ => some 1
  | _ => (positiveLength s).or (negativeLength s)

def truthLength (s : List Char) : Option Nat :=
  if ['#', 't'].isPrefixOf s || ['#', 'f'].isPrefixOf s then some 2 else none

def wordLength : List Char → Option Nat
  | [] => none
  | c :: rest => if isLetter c then some ((rest.takeWhile isWordChar).length + 1) else none

def markLength : List Char → Option Nat
  | [] => none
  | c :: _ => if marks.any (·.1 == c) then some 1 else none

variable {s v rest : List Char} {c : Char} {n : Nat} {o : Option Nat} {t u : List Char → Bool}

lemma length_le_of_all {test : Char → Bool} (hv : v <+: s) (h : v.all test = true) :
    v.length ≤ (s.takeWhile test).length := by
  obtain ⟨t, rfl⟩ := hv
  rw [takeWhile_append_of_pos (by simpa using h), length_append]
  exact Nat.le_add_right _ _

lemma length_takeWhile_le (test : Char → Bool) (s : List Char) : (s.takeWhile test).length ≤ s.length :=
  (List.takeWhile_prefix test).length_le

lemma take_length_takeWhile (test : Char → Bool) (s : List Char) :
    s.take (s.takeWhile test).length = s.takeWhile test :=
  (prefix_iff_eq_take.mp (List.takeWhile_prefix test)).symm

lemma isLongest_cons {first test : Char → Bool} (s : List Char) :
    IsLongest (fun w => match w with | [] => false | c :: rest => first c && rest.all test) s
      (match s with
        | [] => none
        | c :: rest => if first c then some ((rest.takeWhile test).length + 1) else none) := by
  cases s with
  | nil =>
    intro v hv
    rw [prefix_nil.mp hv]
  | cons c rest =>
    by_cases hc : first c = true
    · simp only [hc, if_true]
      refine ⟨?_, ?_, ?_⟩
      · simpa using length_takeWhile_le test rest
      · simp [hc, take_length_takeWhile]
      · intro v hv hl
        cases v with
        | nil => simp
        | cons d v =>
          simp only [Bool.and_eq_true] at hl
          simpa using length_le_of_all (cons_prefix_cons.mp hv).2 hl.2
    · simp only [hc, Bool.false_eq_true, if_false]
      intro v hv
      cases v with
      | nil => rfl
      | cons d v =>
        obtain rfl := (cons_prefix_cons.mp hv).1
        simp [hc]

lemma isLongest_positive (s : List Char) : IsLongest isPositive s (positiveLength s) :=
  isLongest_cons s

lemma isLongest_word (s : List Char) : IsLongest isWord s (wordLength s) :=
  isLongest_cons s

lemma isLongest_truth (s : List Char) : IsLongest isTruth s (truthLength s) := by
  unfold truthLength
  split
  · rename_i h
    rw [Bool.or_eq_true, isPrefixOf_iff_prefix, isPrefixOf_iff_prefix] at h
    refine ⟨?_, ?_, ?_⟩
    · rcases h with ⟨t, rfl⟩ | ⟨t, rfl⟩ <;> simp
    · rcases h with ⟨t, rfl⟩ | ⟨t, rfl⟩ <;> rfl
    · intro v _ ht
      rcases isTruth_iff.mp ht with rfl | rfl <;> simp
  · rename_i h
    intro v hp
    by_contra ht
    rw [Bool.or_eq_true, isPrefixOf_iff_prefix, isPrefixOf_iff_prefix, not_or] at h
    rcases isTruth_iff.mp (by simpa using ht) with rfl | rfl
    · exact h.1 hp
    · exact h.2 hp

lemma isMark_cons (c : Char) (v : List Char) : isMark (c :: v) = (v.isEmpty && marks.any (·.1 == c)) := by
  cases v with
  | nil => simp [isMark, BEq.comm]
  | cons d v => simp [isMark]

lemma isLongest_mark (s : List Char) : IsLongest isMark s (markLength s) := by
  cases s with
  | nil =>
    intro v hv
    rw [prefix_nil.mp hv]
    rfl
  | cons c rest =>
    by_cases hc : marks.any (·.1 == c) = true
    · rw [markLength, if_pos hc]
      refine ⟨by simp, by rw [take_succ_cons, take_zero, isMark_cons, hc]; rfl, ?_⟩
      intro v hv h
      cases v with
      | nil => simp
      | cons d v =>
        rw [isMark_cons, Bool.and_eq_true, List.isEmpty_iff] at h
        simp [h.1]
    · rw [markLength, if_neg hc]
      intro v hv
      cases v with
      | nil => rfl
      | cons d v =>
        obtain rfl := (cons_prefix_cons.mp hv).1
        rw [isMark_cons, Bool.eq_false_iff.mpr hc, Bool.and_false]

lemma isNumeral_cons (hc : c ≠ '-') (v : List Char) :
    isNumeral (c :: v) = (c == '0' && v.isEmpty || isPositive (c :: v)) := by
  unfold isNumeral
  split
  · rename_i h
    exact absurd (List.cons.inj h).1 hc
  · cases v <;> simp

lemma numeralLength_zero (rest : List Char) : numeralLength ('0' :: rest) = some 1 := rfl

lemma numeralLength_of_ne (h0 : c ≠ '0') (rest : List Char) :
    numeralLength (c :: rest) = (positiveLength (c :: rest)).or (negativeLength (c :: rest)) := by
  unfold numeralLength
  split
  · rename_i h
    exact absurd (List.cons.inj h).1 h0
  · rfl

lemma numeralLength_cons (h0 : c ≠ '0') (hm : c ≠ '-') (rest : List Char) :
    numeralLength (c :: rest) = positiveLength (c :: rest) := by
  rw [numeralLength_of_ne h0]
  simp [negativeLength, hm]

lemma IsLongest.congr (h : IsLongest t (c :: rest) o) (hnil : t [] = u []) (hcons : ∀ v, t (c :: v) = u (c :: v)) :
    IsLongest u (c :: rest) o := by
  have htu : ∀ v, v <+: c :: rest → t v = u v := by
    intro v hv
    cases v with
    | nil => exact hnil
    | cons d v =>
      obtain rfl := (cons_prefix_cons.mp hv).1
      exact hcons v
  cases o with
  | none => exact fun v hv => htu v hv ▸ h v hv
  | some n => exact ⟨h.1, htu _ (List.take_prefix _ _) ▸ h.2.1, fun v hv hu => h.2.2 v hv (htu v hv ▸ hu)⟩

lemma IsLongest.cons (h : IsLongest t rest o) (hnil : u [] = false) (hcons : ∀ v, u (c :: v) = t v) :
    IsLongest u (c :: rest) (o.map (· + 1)) := by
  cases o with
  | none =>
    intro v hv
    cases v with
    | nil => exact hnil
    | cons d v =>
      obtain ⟨rfl, hv'⟩ := cons_prefix_cons.mp hv
      rw [hcons, h v hv']
  | some n =>
    refine ⟨Nat.succ_le_succ h.1, ?_, ?_⟩
    · rw [take_succ_cons, hcons, h.2.1]
    · intro v hv hu
      cases v with
      | nil => simp
      | cons d v =>
        obtain ⟨rfl, hv'⟩ := cons_prefix_cons.mp hv
        exact Nat.succ_le_succ (h.2.2 v hv' (hcons v ▸ hu))

lemma isLongest_zero (rest : List Char) : IsLongest isNumeral ('0' :: rest) (some 1) := by
  refine ⟨by simp, rfl, ?_⟩
  intro v hv h
  cases v with
  | nil => simp
  | cons d v =>
    obtain rfl := (cons_prefix_cons.mp hv).1
    have hp : isPositive ('0' :: v) = false := rfl
    rw [isNumeral_cons (by decide), hp, Bool.or_false, Bool.and_eq_true, List.isEmpty_iff] at h
    simp [h.2]

lemma isLongest_numeral (s : List Char) : IsLongest isNumeral s (numeralLength s) := by
  cases s with
  | nil =>
    intro v hv
    rw [prefix_nil.mp hv]
    rfl
  | cons c rest =>
    by_cases h0 : c = '0'
    · subst h0
      exact isLongest_zero rest
    · by_cases hm : c = '-'
      · subst hm
        exact (isLongest_positive rest).cons rfl fun v => rfl
      · rw [numeralLength_cons h0 hm]
        refine (isLongest_positive (c :: rest)).congr (u := isNumeral) rfl fun v => ?_
        have hz : (c == '0') = false := by simpa using h0
        rw [isNumeral_cons hm, hz, Bool.false_and, Bool.false_or]

lemma IsLongest.le (h : IsLongest t s o) (ho : ∀ m, o = some m → m ≤ n) (hv : v <+: s)
    (ht : t v = true) : v.length ≤ n := by
  cases o with
  | none =>
    rw [h v hv] at ht
    cases ht
  | some m => exact le_trans (h.2.2 v hv ht) (ho m rfl)

lemma markLength_le {m : Nat} (h : markLength s = some m) : m = 1 := by
  cases s with
  | nil => cases h
  | cons c rest =>
    rw [markLength] at h
    split at h
    · exact (Option.some.inj h).symm
    · cases h

lemma length_le_of_isLexeme (h0 : 0 < n) (hn : ∀ m, numeralLength s = some m → m ≤ n)
    (ht : ∀ m, truthLength s = some m → m ≤ n) (hw : ∀ m, wordLength s = some m → m ≤ n) (hv : v <+: s)
    (h : isLexeme v = true) : v.length ≤ n := by
  simp only [isLexeme, Bool.or_eq_true] at h
  rcases h with ((h | h) | h) | h
  · exact (isLongest_numeral s).le hn hv h
  · exact (isLongest_truth s).le ht hv h
  · exact (isLongest_word s).le hw hv h
  · refine (isLongest_mark s).le ?_ hv h
    intro m hm
    rw [markLength_le hm]
    exact h0

lemma wordLength_of_numeralLength (h : numeralLength s = some n) : wordLength s = none := by
  cases s with
  | nil => rfl
  | cons c rest =>
    rw [wordLength, if_neg]
    intro hl
    rw [numeralLength_cons (letter_ne hl rfl) (letter_ne hl rfl), positiveLength,
      isNonzero_eq_false_of_isLetter hl] at h
    cases h

lemma head_of_truthLength (h : truthLength s = some n) : ∃ rest, s = '#' :: rest := by
  unfold truthLength at h
  split at h
  · rename_i hp
    rw [Bool.or_eq_true, isPrefixOf_iff_prefix, isPrefixOf_iff_prefix] at hp
    rcases hp with ⟨t, rfl⟩ | ⟨t, rfl⟩
    · exact ⟨_, rfl⟩
    · exact ⟨_, rfl⟩
  · cases h

lemma pos_of_isLongest (h : IsLongest t s (some n)) (hnil : t [] = false) : 0 < n := by
  by_contra hn
  obtain rfl : n = 0 := by omega
  have := h.2.1
  rw [take_zero, hnil] at this
  cases this

lemma longest_eq (s : List Char) :
    longest s = ((numeralLength s).or ((truthLength s).or ((wordLength s).or (markLength s)))).map s.take := by
  have hN := isLongest_numeral s
  have hT := isLongest_truth s
  have hW := isLongest_word s
  have hM := isLongest_mark s
  cases hn : numeralLength s with
  | some n =>
    rw [hn] at hN
    have htn : ∀ m, truthLength s = some m → m ≤ n := by
      intro m hm
      obtain ⟨rest, rfl⟩ := head_of_truthLength hm
      cases hn
    have hwn : ∀ m, wordLength s = some m → m ≤ n := by
      intro m hm
      rw [wordLength_of_numeralLength hn] at hm
      cases hm
    refine longest_eq_take hN.1 (by simp [isLexeme, hN.2.1]) fun v hv h => ?_
    exact length_le_of_isLexeme (pos_of_isLongest hN rfl) (by simp [hn]) htn hwn hv h
  | none =>
    cases ht : truthLength s with
    | some n =>
      rw [ht] at hT
      have hwn : ∀ m, wordLength s = some m → m ≤ n := by
        intro m hm
        obtain ⟨rest, rfl⟩ := head_of_truthLength ht
        cases hm
      refine longest_eq_take hT.1 (by simp [isLexeme, hT.2.1]) fun v hv h => ?_
      exact length_le_of_isLexeme (pos_of_isLongest hT rfl) (by simp [hn]) (by simp [ht]) hwn hv h
    | none =>
      cases hw : wordLength s with
      | some n =>
        rw [hw] at hW
        refine longest_eq_take hW.1 (by simp [isLexeme, hW.2.1]) fun v hv h => ?_
        exact length_le_of_isLexeme (pos_of_isLongest hW rfl) (by simp [hn]) (by simp [ht]) (by simp [hw]) hv h
      | none =>
        cases hm : markLength s with
        | some n =>
          rw [hm] at hM
          refine longest_eq_take hM.1 (by simp [isLexeme, hM.2.1]) fun v hv h => ?_
          exact length_le_of_isLexeme (pos_of_isLongest hM rfl) (by simp [hn]) (by simp [ht]) (by simp [hw]) hv h
        | none =>
          rw [hn] at hN
          rw [ht] at hT
          rw [hw] at hW
          rw [hm] at hM
          apply longest_eq_none
          intro v hv
          simp [isLexeme, hN v hv, hT v hv, hW v hv, hM v hv]

end Lexeme

namespace Lexicon

variable {next : Cursor → Option Cursor} {s : List Char}

lemma past_cons (c : Char) (rest : List Char) (position : Nat) (last : Option Nat) (n : Nat) :
    Cursor.past ⟨rest, position + 1, last⟩ n id = Cursor.past ⟨c :: rest, position, last⟩ (n + 1) id := by
  simp only [Cursor.past, drop_succ_cons, Function.iterate_id, id, Pattern.Cursor.mk.injEq, true_and, and_true]
  omega

lemma run_positive (hn : Accepts next) (s : Cursor) :
    run false (.seq (range '1' '9') (repeated (range '0' '9'))) next s =
      (positiveLength s.rest).bind fun n => next (s.past n id) := by
  obtain ⟨rest, position, last⟩ := s
  rw [run]
  cases rest with
  | nil => rfl
  | cons c rest =>
    rw [range, (single_range '1' '9').run_cons, repeated, range, run_times (single_range '0' '9') hn,
      past_cons c]
    by_cases hc : isNonzero c = true
    · rw [positiveLength, if_pos hc]
      exact if_pos hc
    · rw [positiveLength, if_neg hc]
      exact if_neg hc

lemma run_negative (hn : Accepts next) (s : Cursor) :
    run false (.seq (.seq (.char '-') (range '1' '9')) (repeated (range '0' '9'))) next s =
      (negativeLength s.rest).bind fun n => next (s.past n id) := by
  obtain ⟨rest, position, last⟩ := s
  have hseq : ∀ t, run false (range '1' '9') (run false (repeated (range '0' '9')) next) t =
      (positiveLength t.rest).bind fun n => next (t.past n id) := run_positive hn
  rw [run, run]
  cases rest with
  | nil => rfl
  | cons c rest =>
    rw [(single_char '-').run_cons, negativeLength]
    by_cases hc : (c == '-') = true
    · rw [if_pos hc, if_pos hc, hseq]
      cases positiveLength rest with
      | none => rfl
      | some n =>
        rw [Option.map_some, Option.bind_some, Option.bind_some, id, past_cons c]
    · rw [if_neg hc, if_neg hc]
      rfl

lemma alt_eq_or (p q : Pattern) (s : Cursor) :
    run false (.alt p q) next s = (run false p next s).or (run false q next s) := by
  rw [run]
  cases run false p next s <;> rfl

lemma run_numeral (hn : Accepts next) (s : Cursor) :
    run false numeral next s = (numeralLength s.rest).bind fun n => next (s.past n id) := by
  have hsome : ∀ n, ∃ r, next (s.past n id) = some r := fun n => Option.isSome_iff_exists.mp (hn _)
  rw [numeral, alt_eq_or, alt_eq_or, run_positive hn, run_negative hn]
  obtain ⟨rest, position, last⟩ := s
  cases rest with
  | nil => rfl
  | cons c rest =>
    rw [(single_char '0').run_cons]
    by_cases h0 : c = '0'
    · subst h0
      obtain ⟨r, hr⟩ := hsome 1
      rw [numeralLength_zero, Option.bind_some, hr, if_pos (beq_self_eq_true '0')]
      have hr' : next ⟨rest, position + 1, id last⟩ = some r := hr
      rw [hr']
      rfl
    · have hz : (c == '0') = false := by simpa using h0
      rw [hz, if_neg Bool.false_ne_true, Option.none_or, numeralLength_of_ne h0]
      cases positiveLength (c :: rest) with
      | none => rfl
      | some n =>
        obtain ⟨r, hr⟩ := hsome n
        simp only [Option.bind_some, Option.some_or, hr]

lemma run_truth (hn : Accepts next) (s : Cursor) :
    run false truth next s = (truthLength s.rest).bind fun n => next (s.past n id) := by
  have ht : ∀ t, run false (.seq (.char '#') (.char 't')) next t =
      if ['#', 't'].isPrefixOf t.rest then next (t.past 2 id) else none :=
    run_literal (w := ['#', 't']) (by simp)
  have hf : ∀ t, run false (.seq (.char '#') (.char 'f')) next t =
      if ['#', 'f'].isPrefixOf t.rest then next (t.past 2 id) else none :=
    run_literal (w := ['#', 'f']) (by simp)
  obtain ⟨r, hr⟩ := Option.isSome_iff_exists.mp (hn (s.past 2 id))
  rw [truth, alt_eq_or, ht, hf, hr, truthLength]
  by_cases h1 : ['#', 't'].isPrefixOf s.rest = true
  · rw [h1, Bool.true_or, if_pos rfl, if_pos rfl, Option.bind_some, hr]
    rfl
  · rw [Bool.eq_false_iff.mpr h1, Bool.false_or, if_neg Bool.false_ne_true, Option.none_or]
    by_cases h2 : ['#', 'f'].isPrefixOf s.rest = true
    · rw [h2, if_pos rfl, if_pos rfl, Option.bind_some, hr]
    · rw [if_neg h2, if_neg h2]
      rfl

lemma single_wordChar : Single wordChar isWordChar fun _ => some 4 := by
  have hd : ∀ c, isDigit c = true → (c == '-') = false := by
    intro c hc
    by_contra hm
    obtain rfl : c = '-' := by simpa using hm
    cases hc
  have hl : ∀ c, isLetter c = true → (isDigit c || c == '-') = false := by
    intro c hc
    rw [isDigit_eq_false_of_isLetter hc, Bool.false_or, beq_eq_false_iff_ne]
    exact letter_ne hc rfl
  exact ((single_range 'a' 'z').alt ((single_range '0' '9').alt (single_char '-') hd) hl).group 4

lemma run_word (s : Cursor) : run false (.group 3 word) some s =
      (wordLength s.rest).map fun n => ⟨s.rest.drop n, s.position + n, some 3⟩ := by
  obtain ⟨rest, position, last⟩ := s
  rw [run, word, run]
  cases rest with
  | nil => rfl
  | cons c rest =>
    rw [range, (single_range 'a' 'z').run_cons, repeated, run_times single_wordChar (accepts_some.group 3)]
    by_cases hc : isLetter c = true
    · rw [wordLength, if_pos hc]
      refine (if_pos hc).trans ?_
      simp only [Cursor.past, Option.map_some, drop_succ_cons, Option.some.injEq, Pattern.Cursor.mk.injEq,
        true_and, and_true]
      omega
    · rw [wordLength, if_neg hc]
      exact if_neg hc

lemma match?_literals (position : Nat) (s : List Char) :
    (literals 5 "print-bool".toList fixedTexts).match? false position s =
      ((("print-bool".toList :: fixedTexts).zipIdx 5).find? fun v => v.1.isPrefixOf s).map fun v =>
        ⟨v.1.length, some v.2⟩ := by
  rw [match?, run_literals accepts_some]
  · cases List.find? _ _ with
    | none => rfl
    | some v => simp [Cursor.past]
  · decide

lemma match?_group {p : Pattern} {length : List Char → Option Nat} {number position : Nat}
    (h : ∀ next t, Accepts next → run false p next t = (length t.rest).bind fun n => next (t.past n id)) :
    (Pattern.group number p).match? false position s = (length s).map (⟨·, some number⟩) := by
  rw [match?, run, h _ _ (accepts_some.group number)]
  cases length s with
  | none => rfl
  | some n => simp [Cursor.past]

lemma match?_word (position : Nat) (s : List Char) :
    (Pattern.group 3 word).match? false position s = (wordLength s).map (⟨·, some 3⟩) := by
  rw [match?, run_word]
  cases wordLength s with
  | none => rfl
  | some n => simp

lemma match?_alt (p q : Pattern) (position : Nat) (s : List Char) :
    (Pattern.alt p q).match? false position s =
      (p.match? false position s).or (q.match? false position s) := by
  rw [match?, alt_eq_or, Option.map_or]
  rfl

lemma match?_compiled (position : Nat) (s : List Char) :
    compiled.match? position s =
      ((numeralLength s).map (⟨·, some 1⟩)).or (((truthLength s).map (⟨·, some 2⟩)).or
        (((wordLength s).map (⟨·, some 3⟩)).or
          ((literals 5 "print-bool".toList fixedTexts).match? false position s))) := by
  rw [Compiled.match?, compiled, match?_alt, match?_alt, match?_alt, match?_word,
    match?_group fun _ t hn => run_numeral hn t, match?_group fun _ t hn => run_truth hn t]

def target (w : List Char) : Target Phrase Desk :=
  if isNumeral w then .handled "NUMBER" (handler number)
  else if isTruth w then .handled "BOOL" (handler bool)
  else if isWord w then .handled "ID" (handler identifier)
  else .token (Lexeme.type w)

lemma match?_literals_mark {c : Char} (hc : marks.any (·.1 == c) = true) (position : Nat) (rest : List Char) :
    ∃ g, (literals 5 "print-bool".toList fixedTexts).match? false position (c :: rest) = some ⟨1, some g⟩ ∧
      master.target (some g) = .ok (target [c]) := by
  rw [match?_literals]
  simp only [marks, any_cons, any_nil, Bool.or_false, Bool.or_eq_true, beq_iff_eq] at hc
  rcases hc with rfl | rfl | rfl | rfl | rfl | rfl | rfl | rfl | rfl
  · exact ⟨14, rfl, rfl⟩
  · exact ⟨15, rfl, rfl⟩
  · exact ⟨16, rfl, rfl⟩
  · exact ⟨19, rfl, rfl⟩
  · exact ⟨20, rfl, rfl⟩
  · exact ⟨21, rfl, rfl⟩
  · exact ⟨22, rfl, rfl⟩
  · exact ⟨17, rfl, rfl⟩
  · exact ⟨18, rfl, rfl⟩

lemma head_fixedTexts : ∀ w ∈ "print-bool".toList :: fixedTexts,
    ∃ c v, w = c :: v ∧ (isLetter c = true ∨ marks.any (·.1 == c) = true) := by
  have h : ("print-bool".toList :: fixedTexts).all (fun w => w.head?.any fun c =>
      isLetter c || marks.any (·.1 == c)) = true := by decide +kernel
  intro w hw
  have hc := all_eq_true.mp h w hw
  cases w with
  | nil => cases hc
  | cons c v => exact ⟨c, v, rfl, by simpa using hc⟩

lemma match?_literals_none (hw : wordLength s = none) (hm : markLength s = none)
    (position : Nat) : (literals 5 "print-bool".toList fixedTexts).match? false position s = none := by
  rw [match?_literals, Option.map_eq_none_iff, find?_eq_none]
  rintro ⟨w, n⟩ hmem hp
  obtain ⟨c, v, rfl, hc⟩ := head_fixedTexts w (fst_mem_of_mem_zipIdx hmem)
  obtain ⟨t, rfl⟩ := isPrefixOf_iff_prefix.mp hp
  rcases hc with hc | hc
  · simp [wordLength, hc] at hw
  · rw [cons_append, markLength, if_pos hc] at hm
    cases hm

lemma firstMatch_master (position : Nat) (s : List Char) :
    firstMatch position s [master] = (longest s).map fun w => (w.length, .ok (target w)) := by
  have hN := isLongest_numeral s
  have hT := isLongest_truth s
  have hW := isLongest_word s
  have hm : master.compiled.match? position s = compiled.match? position s := rfl
  rw [firstMatch, firstMatch, hm, match?_compiled, longest_eq]
  cases hn : numeralLength s with
  | some n =>
    rw [hn] at hN
    have ht : target (s.take n) = .handled "NUMBER" (handler number) := if_pos hN.2.1
    simp only [Option.map_some, Option.some_or, length_take, Nat.min_eq_left hN.1, ht]
    rfl
  | none =>
    rw [hn] at hN
    have hN' := fun n => hN _ (List.take_prefix n s)
    cases ht : truthLength s with
    | some n =>
      rw [ht] at hT
      have ht : target (s.take n) = .handled "BOOL" (handler bool) := by
        rw [target, hN', hT.2.1]
        rfl
      simp only [Option.map_some, Option.map_none, Option.none_or, Option.some_or, length_take,
        Nat.min_eq_left hT.1, ht]
      rfl
    | none =>
      rw [ht] at hT
      have hT' := fun n => hT _ (List.take_prefix n s)
      cases hw : wordLength s with
      | some n =>
        rw [hw] at hW
        have ht : target (s.take n) = .handled "ID" (handler identifier) := by
          rw [target, hN', hT', hW.2.1]
          rfl
        simp only [Option.map_some, Option.map_none, Option.none_or, Option.some_or, length_take,
          Nat.min_eq_left hW.1, ht]
        rfl
      | none =>
        cases hk : markLength s with
        | none =>
          rw [match?_literals_none hw hk]
          rfl
        | some n =>
          obtain rfl := markLength_le hk
          cases s with
          | nil => cases hk
          | cons c rest =>
            have hc : marks.any (·.1 == c) = true := by
              rw [markLength] at hk
              by_contra hc
              rw [if_neg hc] at hk
              cases hk
            obtain ⟨g, hg, htarget⟩ := match?_literals_mark hc position rest
            rw [hg]
            simp [htarget]

end Lexicon

end LispKit.Lisp
