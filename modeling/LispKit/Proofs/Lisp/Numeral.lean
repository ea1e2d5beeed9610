import LispKit.Proofs.Lisp.Lexeme
import Mathlib.Data.Nat.Digits.Defs
import Mathlib.Tactic.IntervalCases

/-! Numerals: the integer that one denotes, that it is the one that is read, and that every integer has one numeral. -/

namespace LispKit.Lisp

open List

namespace Lexeme

variable {c : Char}

lemma isDigit_iff : isDigit c = true ↔ 48 ≤ c.toNat ∧ c.toNat ≤ 57 := by
  simp only [isDigit, Bool.and_eq_true, decide_eq_true_eq, Char.le_def, UInt32.le_iff_toNat_le]
  rfl

def integer : List Char → Int
  | '-' :: digits => -(Nat.ofDigitChars 10 digits 0 : Int)
  | digits => Nat.ofDigitChars 10 digits 0

def digitCount (w : List Char) : Nat :=
  w.countP isDigit

lemma isDecimalDigit_of_isDigit (h : isDigit c = true) : Text.isDecimalDigit c = true := by
  rw [isDigit_iff] at h
  rw [Text.isDecimalDigit, if_pos (by omega)]
  simp only [Char.isDigit, Bool.and_eq_true, decide_eq_true_eq, ge_iff_le, UInt32.le_iff_toNat_le]
  exact h

lemma digitValue_of_isDigit (h : isDigit c = true) : Text.digitValue c = c.toNat - 48 := by
  have hr : Text.digitRanges.all (fun r => 57 < r.1) = true := by decide +kernel
  have hn : (Text.digitRanges.find? fun r => r.1 ≤ c.toNat && c.toNat ≤ r.2) = none := by
    rw [find?_eq_none]
    intro r hmem hc
    have := all_eq_true.mp hr r hmem
    simp only [Bool.and_eq_true, decide_eq_true_eq] at hc this
    have := (isDigit_iff.mp h).2
    omega
  rw [Text.digitValue, hn]
  rfl

variable {ds w : List Char}

lemma digitsValue_eq (h : ds.all isDigit = true) : Text.digitsValue ds = Nat.ofDigitChars 10 ds 0 := by
  have hfold : ∀ n, ds.foldl (fun n c => 10 * n + Text.digitValue c) n =
      ds.foldl (fun n c => 10 * n + (c.toNat - '0'.toNat)) n := by
    induction ds with
    | nil => exact fun n => rfl
    | cons c ds ih =>
      intro n
      rw [all_cons, Bool.and_eq_true] at h
      rw [foldl_cons, foldl_cons, digitValue_of_isDigit h.1]
      exact ih h.2 _
  exact hfold 0

lemma digitGroups_eq (h : ds.all isDigit = true) (hne : ds ≠ []) : Text.digitGroups ds = some ds := by
  induction ds with
  | nil => exact absurd rfl hne
  | cons c rest ih =>
    rw [all_cons, Bool.and_eq_true] at h
    have hc := isDecimalDigit_of_isDigit h.1
    cases rest with
    | nil => rw [Text.digitGroups, if_pos hc]
    | cons d rest =>
      have hd : d ≠ '_' := by
        rintro rfl
        have := h.2
        rw [all_cons] at this
        cases this
      rw [Text.digitGroups, if_pos hc, ih h.2 (by simp)]
      · rfl
      · simp
      · rintro u hu
        exact hd (List.cons.inj hu).1

lemma trim_eq (h : ∀ c ∈ w, Text.isBlank c = false) : Text.trim w = w := by
  have hleft : ∀ v : List Char, (∀ c ∈ v, Text.isBlank c = false) → Text.trimLeft v = v := by
    intro v hv
    cases v with
    | nil => rfl
    | cons c v => simp [Text.trimLeft, hv c (by simp)]
  rw [Text.trim, hleft w h, hleft w.reverse (by simpa using h), reverse_reverse]

lemma isBlank_of_isDigit (h : isDigit c = true) : Text.isBlank c = false := by
  have hr : Text.blankRanges.all (fun r => 57 < r.1 || r.2 < 48) = true := by decide
  rw [isDigit_iff] at h
  rw [Text.isBlank, Text.inRanges, any_eq_false]
  intro r hmem hc
  have := all_eq_true.mp hr r hmem
  simp only [Bool.and_eq_true, Bool.or_eq_true, decide_eq_true_eq] at hc this
  omega

lemma isDigit_of_isPositive (h : isPositive ds = true) : ds.all isDigit = true := by
  cases ds with
  | nil => rfl
  | cons c ds =>
    rw [isPositive, Bool.and_eq_true] at h
    rw [all_cons, isDigit_of_isNonzero h.1, h.2, Bool.and_self]

lemma digits_of_isNumeral (h : isNumeral w = true) :
    ∃ ds, ds ≠ [] ∧ ds.all isDigit = true ∧ (w = '-' :: ds ∨ w = ds) := by
  unfold isNumeral at h
  split at h
  · rename_i ds
    refine ⟨ds, ?_, isDigit_of_isPositive h, .inl rfl⟩
    rintro rfl
    cases h
  · simp only [Bool.or_eq_true, beq_iff_eq] at h
    rcases h with rfl | h
    · exact ⟨['0'], by simp, rfl, .inr rfl⟩
    · refine ⟨w, ?_, isDigit_of_isPositive h, .inr rfl⟩
      rintro rfl
      cases h

lemma readInteger_eq (h : isNumeral w = true) : Text.readInteger (String.ofList w) =
    if Text.digitLimit < digitCount w then .error (.tooLong (digitCount w)) else .ok (integer w) := by
  obtain ⟨ds, hne, hds, hw⟩ := digits_of_isNumeral h
  have hcount : ds.countP isDigit = ds.length := countP_eq_length.mpr (all_eq_true.mp hds)
  have hblank : ∀ c ∈ w, Text.isBlank c = false := by
    intro c hc
    have hd : c = '-' ∨ c ∈ ds := by
      rcases hw with rfl | rfl
      · exact mem_cons.mp hc
      · exact .inr hc
    rcases hd with rfl | hd
    · rfl
    · exact isBlank_of_isDigit (all_eq_true.mp hds c hd)
  rw [Text.readInteger, String.toList_ofList, trim_eq hblank]
  rcases hw with rfl | rfl
  · rw [digitCount, countP_cons_of_neg (by decide), hcount]
    simp only [Text.unsigned, digitGroups_eq hds hne, if_true, digitsValue_eq hds]
    rfl
  · rw [digitCount, hcount]
    cases w with
    | nil => exact absurd rfl hne
    | cons c w =>
      have hc : isDigit c = true := all_eq_true.mp hds c (by simp)
      have hm : c ≠ '-' := by
        rintro rfl
        cases hc
      have hp : c ≠ '+' := by
        rintro rfl
        cases hc
      have hu : Text.unsigned (c :: w) = (false, c :: w) := by
        unfold Text.unsigned
        split
        · exact absurd (List.cons.inj ‹_›).1 hm
        · exact absurd (List.cons.inj ‹_›).1 hp
        · rfl
      have hi : integer (c :: w) = Nat.ofDigitChars 10 (c :: w) 0 := by
        unfold integer
        split
        · exact absurd (List.cons.inj ‹_›).1 hm
        · rfl
      simp only [hu, digitGroups_eq hds hne, Bool.false_eq_true, if_false, digitsValue_eq hds, hi]

lemma readInteger_numeral (h : isNumeral w = true) (hs : digitCount w ≤ Text.digitLimit) :
    Text.readInteger (String.ofList w) = .ok (integer w) := by
  rw [readInteger_eq h, if_neg (Nat.not_lt.mpr hs)]

lemma digitChar_isNonzero {n : Nat} (h : 0 < n) (h' : n < 10) : isNonzero n.digitChar = true := by
  interval_cases n <;> rfl

lemma isDigit_eq (c : Char) : isDigit c = c.isDigit := by
  rw [Bool.eq_iff_iff, isDigit_iff]
  simp only [Char.isDigit, Bool.and_eq_true, decide_eq_true_eq, ge_iff_le, UInt32.le_iff_toNat_le]
  rfl

lemma isPositive_append {d : Char} (h : isPositive ds = true) (hd : isDigit d = true) :
    isPositive (ds ++ [d]) = true := by
  cases ds with
  | nil => cases h
  | cons c ds =>
    rw [isPositive, Bool.and_eq_true] at h
    simp [isPositive, h.1, hd, h.2]

lemma isPositive_toDigits {n : Nat} (h : 0 < n) : isPositive (Nat.toDigits 10 n) = true := by
  induction n using Nat.strongRecOn with
  | ind n ih =>
    by_cases hn : n < 10
    · rw [Nat.toDigits_of_lt_base hn, isPositive, digitChar_isNonzero h hn]
      rfl
    · rw [Nat.toDigits_of_base_le (by decide) (by omega)]
      refine isPositive_append (ih (n / 10) (by omega) (by omega)) ?_
      rw [isDigit_eq]
      exact Nat.isDigit_of_mem_toDigits (b := 10) (n := n % 10) (by decide) (by decide)
        (by rw [Nat.toDigits_of_lt_base (by omega)]; simp)

lemma toDigits_digit (h : isDigit c = true) : Nat.toDigits 10 (c.toNat - 48) = [c] := by
  rw [isDigit_iff] at h
  rw [Nat.toDigits_of_lt_base (by omega)]
  have hc : c = Char.ofNat c.toNat := (Char.ofNat_toNat c).symm
  obtain ⟨hle, hge⟩ := h
  generalize c.toNat = m at *
  subst hc
  interval_cases m <;> rfl

lemma ofDigitChars_pos (h : isPositive ds = true) : 0 < Nat.ofDigitChars 10 ds 0 := by
  cases ds with
  | nil => cases h
  | cons c ds =>
    rw [isPositive, Bool.and_eq_true] at h
    have hc : 49 ≤ c.toNat := by
      have := h.1
      simp only [isNonzero, Bool.and_eq_true, decide_eq_true_eq, Char.le_def, UInt32.le_iff_toNat_le] at this
      exact this.1
    rw [Nat.ofDigitChars_cons, Nat.ofDigitChars_eq_ofDigitChars_zero]
    have : '0'.toNat = 48 := rfl
    have hpos : 0 < 10 ^ ds.length * (10 * 0 + (c.toNat - '0'.toNat)) := Nat.mul_pos (by positivity) (by omega)
    omega

lemma toDigits_ofDigitChars (h : isPositive ds = true) : Nat.toDigits 10 (Nat.ofDigitChars 10 ds 0) = ds := by
  induction ds using List.reverseRecOn with
  | nil => cases h
  | append_singleton ds d ih =>
    have hd : isDigit d = true := all_eq_true.mp (isDigit_of_isPositive h) d (by simp)
    have hlt := (isDigit_iff.mp hd).2
    rw [Nat.ofDigitChars_append, Nat.ofDigitChars_cons, Nat.ofDigitChars_nil, show '0'.toNat = 48 from rfl]
    cases ds with
    | nil =>
      rw [Nat.ofDigitChars_nil, Nat.mul_zero, Nat.zero_add]
      exact toDigits_digit hd
    | cons c ds =>
      have hds : isPositive (c :: ds) = true := by
        rw [cons_append, isPositive, all_append, Bool.and_eq_true, Bool.and_eq_true] at h
        rw [isPositive, h.1, h.2.1, Bool.and_self]
      rw [← Nat.toDigits_append_toDigits (by decide) (ofDigitChars_pos hds) (by omega), ih hds, toDigits_digit hd]

lemma toList_repr (n : Nat) : (Nat.repr n).toList = Nat.toDigits 10 n := by
  rw [Nat.repr_eq_ofList_toDigits, String.toList_ofList]

def numeral (n : Int) : List Char :=
  (Text.decimal n).toList

lemma numeral_of_neg {n : Int} (h : n < 0) : numeral n = '-' :: Nat.toDigits 10 n.natAbs := by
  rw [numeral, Text.decimal, if_pos h, String.toList_append, toList_repr]
  rfl

lemma numeral_of_nonneg {n : Int} (h : ¬n < 0) : numeral n = Nat.toDigits 10 n.natAbs := by
  rw [numeral, Text.decimal, if_neg h, toList_repr]

lemma isNumeral_of_isPositive (h : isPositive ds = true) : isNumeral ds = true := by
  cases ds with
  | nil => cases h
  | cons c ds =>
    have hc : c ≠ '-' := by
      rintro rfl
      cases h
    unfold isNumeral
    split
    · exact absurd (List.cons.inj ‹_›).1 hc
    · rw [h, Bool.or_true]

lemma integer_of_isPositive (h : isPositive ds = true) : integer ds = Nat.ofDigitChars 10 ds 0 := by
  cases ds with
  | nil => cases h
  | cons c ds =>
    have hc : c ≠ '-' := by
      rintro rfl
      cases h
    unfold integer
    split
    · exact absurd (List.cons.inj ‹_›).1 hc
    · rfl

lemma isNumeral_numeral (n : Int) : isNumeral (numeral n) = true := by
  by_cases h : n < 0
  · rw [numeral_of_neg h]
    exact isPositive_toDigits (by omega)
  · rw [numeral_of_nonneg h]
    by_cases h0 : n.natAbs = 0
    · rw [h0]
      rfl
    · exact isNumeral_of_isPositive (isPositive_toDigits (by omega))

lemma integer_numeral (n : Int) : integer (numeral n) = n := by
  by_cases h : n < 0
  · rw [numeral_of_neg h, integer, Nat.ofDigitChars_ten_toDigits]
    omega
  · rw [numeral_of_nonneg h]
    by_cases h0 : n.natAbs = 0
    · obtain rfl := Int.natAbs_eq_zero.mp h0
      rfl
    · rw [integer_of_isPositive (isPositive_toDigits (by omega)), Nat.ofDigitChars_ten_toDigits]
      omega

lemma numeral_integer (h : isNumeral w = true) : numeral (integer w) = w := by
  unfold isNumeral at h
  split at h
  · rename_i ds
    have hpos := ofDigitChars_pos h
    rw [integer, numeral_of_neg (by omega), Int.natAbs_neg, Int.natAbs_natCast, toDigits_ofDigitChars h]
  · simp only [Bool.or_eq_true, beq_iff_eq] at h
    rcases h with rfl | h
    · rfl
    · rw [integer_of_isPositive h, numeral_of_nonneg (by omega), Int.natAbs_natCast, toDigits_ofDigitChars h]

lemma digitCount_numeral (n : Int) : digitCount (numeral n) = (Nat.toDigits 10 n.natAbs).length := by
  have hall : (Nat.toDigits 10 n.natAbs).countP isDigit = (Nat.toDigits 10 n.natAbs).length := by
    rw [countP_eq_length]
    intro c hc
    rw [isDigit_eq]
    exact Nat.isDigit_of_mem_toDigits (by decide) (by decide) hc
  by_cases h : n < 0
  · rw [numeral_of_neg h, digitCount, countP_cons_of_neg (by decide), hall]
  · rw [numeral_of_nonneg h, digitCount, hall]

lemma digitCount_numeral_le (n : Int) :
    digitCount (numeral n) ≤ Text.digitLimit ↔ Text.exceedsDigitLimit n = false := by
  have hlimit : 0 < Text.digitLimit := by
    rw [Text.digitLimit]
    omega
  rw [digitCount_numeral, Nat.length_toDigits_le_iff (by decide) hlimit]
  unfold Text.exceedsDigitLimit
  generalize Text.digitLimit = k
  simp only [decide_eq_false_iff_not, Nat.not_le]
  rfl

end Lexeme

end LispKit.Lisp
