import LispKit.Lisp.Lexicon
import Mathlib.Data.List.Infix

/-! Lexemes, and the division of a source into the longest lexeme at each place, blanks and illegal
characters. -/

namespace LispKit.Lisp

open List

namespace Lexeme

def isDigit (c : Char) : Bool :=
  '0' ≤ c && c ≤ '9'

def isNonzero (c : Char) : Bool :=
  '1' ≤ c && c ≤ '9'

def isLetter (c : Char) : Bool :=
  'a' ≤ c && c ≤ 'z'

def isWordChar (c : Char) : Bool :=
  isLetter c || (isDigit c || c == '-')

def isPositive : List Char → Bool
  | [] => false
  | c :: rest => isNonzero c && rest.all isDigit

def isNumeral (w : List Char) : Bool :=
  match w with
  | '-' :: digits => isPositive digits
  | _ => w == ['0'] || isPositive w

def isTruth (w : List Char) : Bool :=
  w == ['#', 't'] || w == ['#', 'f']

def isWord : List Char → Bool
  | [] => false
  | c :: rest => isLetter c && rest.all isWordChar

def marks : List (Char × String) :=
  [('+', "PLUS"), ('-', "MINUS"), ('*', "MUL"), ('/', "DIV"), ('>', "Greater"), ('<', "Less"),
    ('=', "Equal"), ('(', "LPAREN"), (')', "RPAREN")]

def isMark (w : List Char) : Bool :=
  marks.any fun m => w == [m.1]

def isLexeme (w : List Char) : Bool :=
  isNumeral w || isTruth w || isWord w || isMark w

def longestWithin (s : List Char) : Nat → Option (List Char)
  | 0 => none
  | n + 1 => if isLexeme (s.take (n + 1)) then some (s.take (n + 1)) else longestWithin s n

def longest (s : List Char) : Option (List Char) :=
  longestWithin s s.length

/-- The type of a token: a word has a type of its own exactly if all of it is a reserved word. -/
def type (w : List Char) : String :=
  if isNumeral w then "NUMBER"
  else if isTruth w then "BOOL"
  else if isWord w then (Lexicon.reserved.lookup (String.ofList w)).getD "ID"
  else ((marks.find? fun m => w == [m.1]).map Prod.snd).getD ""

end Lexeme

open Lexeme

inductive Piece where
  | blank (c : Char)
  | lexeme (w : List Char)
  | illegal (c : Char)

def Piece.text : Piece → List Char
  | blank c => [c]
  | lexeme w => w
  | illegal c => [c]

def isBlank (c : Char) : Bool :=
  c == ' ' || c == '\t' || c == '\n' || c == '\r'

/-- At each place a blank is left out, otherwise the longest lexeme is taken, otherwise the character is
illegal. -/
def pieces : List Char → List Piece
  | [] => []
  | c :: rest =>
    if isBlank c then .blank c :: pieces rest
    else
      match longest (c :: rest) with
      | some w => .lexeme w :: pieces (rest.drop (w.length - 1))
      | none => .illegal c :: pieces rest
termination_by s => s.length
decreasing_by all_goals simp; try omega

namespace Lexeme

variable {w : List Char}

lemma isTruth_iff : isTruth w = true ↔ w = ['#', 't'] ∨ w = ['#', 'f'] := by
  simp [isTruth]

variable {c : Char}

lemma letter_ne {d : Char} (h : isLetter c = true) (hd : isLetter d = false) : c ≠ d := by
  rintro rfl
  rw [h] at hd
  cases hd

lemma isDigit_of_isNonzero (h : isNonzero c = true) : isDigit c = true := by
  simp only [isNonzero, isDigit, Bool.and_eq_true, decide_eq_true_eq] at h ⊢
  exact ⟨Char.le_trans (by decide) h.1, h.2⟩

lemma isDigit_eq_false_of_isLetter (h : isLetter c = true) : isDigit c = false := by
  by_contra hd
  simp only [isLetter, isDigit, Bool.and_eq_true, decide_eq_true_eq, Bool.not_eq_false] at h hd
  exact absurd (Char.le_trans h.1 hd.2) (by decide)

lemma isLetter_eq_false_of_isDigit (h : isDigit c = true) : isLetter c = false := by
  by_contra hl
  rw [Bool.not_eq_false] at hl
  rw [isDigit_eq_false_of_isLetter hl] at h
  cases h

lemma isNonzero_eq_false_of_isLetter (h : isLetter c = true) : isNonzero c = false := by
  by_contra hn
  rw [Bool.not_eq_false] at hn
  rw [isLetter_eq_false_of_isDigit (isDigit_of_isNonzero hn)] at h
  cases h

variable {s : List Char}

lemma longestWithin_eq_some {n : Nat} (h : longestWithin s n = some w) : isLexeme w = true ∧ ∃ m ≤ n, w = s.take m := by
  induction n with
  | zero => cases h
  | succ n ih =>
    rw [longestWithin] at h
    split at h
    · rename_i hl
      obtain rfl := Option.some.inj h
      exact ⟨hl, n + 1, le_refl _, rfl⟩
    · obtain ⟨hl, m, hm, hw⟩ := ih h
      exact ⟨hl, m, by omega, hw⟩

lemma isLexeme_nil : isLexeme [] = false := rfl

lemma longest_eq_none (h : ∀ v, v <+: s → isLexeme v = false) : longest s = none := by
  unfold longest
  induction s.length with
  | zero => rfl
  | succ n ih => rw [longestWithin, h _ (List.take_prefix _ s), if_neg Bool.false_ne_true, ih]

lemma longestWithin_eq_take {m n : Nat} (hm : m ≤ n) (hs : m ≤ s.length) (hn : n ≤ s.length)
    (hl : isLexeme (s.take m) = true)
    (h : ∀ v, v <+: s → isLexeme v = true → v.length ≤ m) : longestWithin s n = some (s.take m) := by
  induction n with
  | zero =>
    obtain rfl : m = 0 := by omega
    rw [take_zero, isLexeme_nil] at hl
    cases hl
  | succ n ih =>
    rw [longestWithin]
    by_cases hmn : m = n + 1
    · rw [← hmn, if_pos hl]
    · have hlong : isLexeme (s.take (n + 1)) ≠ true := by
        intro ht
        have := h _ (List.take_prefix _ s) ht
        rw [length_take] at this
        omega
      rw [if_neg hlong]
      exact ih (by omega) (by omega)

lemma longest_eq_take {m : Nat} (hs : m ≤ s.length) (hl : isLexeme (s.take m) = true)
    (h : ∀ v, v <+: s → isLexeme v = true → v.length ≤ m) : longest s = some (s.take m) :=
  longestWithin_eq_take hs hs (le_refl _) hl h

lemma longest_eq_some (h : longest s = some w) : isLexeme w = true ∧ w ≠ [] ∧ w ++ s.drop w.length = s := by
  obtain ⟨hl, m, hm, rfl⟩ := longestWithin_eq_some h
  refine ⟨hl, ?_, ?_⟩
  · intro hnil
    rw [hnil, isLexeme_nil] at hl
    cases hl
  · rw [length_take, Nat.min_eq_left hm, take_append_drop]

end Lexeme

lemma flatMap_text_pieces (s : List Char) : (pieces s).flatMap Piece.text = s := by
  induction s using pieces.induct with
  | case1 => rw [pieces]; rfl
  | case2 c rest hb ih => rw [pieces, if_pos hb, flatMap_cons, ih]; rfl
  | case3 c rest hb w hw ih =>
    obtain ⟨-, hne, hs⟩ := longest_eq_some hw
    have hd : rest.drop (w.length - 1) = (c :: rest).drop w.length := by
      obtain ⟨n, hn⟩ := Nat.exists_eq_add_one_of_ne_zero (by simpa using hne : w.length ≠ 0)
      rw [hn, drop_succ_cons, Nat.add_sub_cancel]
    rw [pieces, if_neg hb, hw, flatMap_cons, ih, hd]
    exact hs
  | case4 c rest hb hn ih => rw [pieces, if_neg hb, hn, flatMap_cons, ih]; rfl

end LispKit.Lisp
