import LispKit.Pattern.Match
import Mathlib.Logic.Function.Iterate

/-! Matching in front of a continuation that accepts everything: what a repetition, a fixed text and a
choice of patterns take. -/

namespace LispKit.Pattern

open List

variable {p q : Pattern} {next : Cursor → Option Cursor} {g : Option Nat → Option Nat} {test : Char → Bool}

def Accepts (next : Cursor → Option Cursor) : Prop :=
  ∀ s, (next s).isSome

lemma accepts_some : Accepts some := fun _ => rfl

lemma Accepts.group (h : Accepts next) (n : Nat) : Accepts fun s => next { s with lastGroup := some n } :=
  fun s => h { s with lastGroup := some n }

def Single (p : Pattern) (test : Char → Bool) (g : Option Nat → Option Nat) : Prop :=
  ∀ next s, run false p next s = s.take test fun s => next { s with lastGroup := g s.lastGroup }

attribute [local simp] run

lemma single_char (c : Char) : Single (char c) (· == c) id := by
  rintro next ⟨rest, position, last⟩
  cases rest with
  | nil => rfl
  | cons d rest =>
    simp only [run, Cursor.take, ClassMember.forms, Bool.false_eq_true, if_false, id, contains_cons,
      contains_nil, Bool.or_false, BEq.comm]

lemma single_range (a b : Char) : Single (oneOf false [.range a b]) (fun c => a ≤ c && c ≤ b) id := by
  rintro next ⟨rest, position, last⟩
  cases rest with
  | nil => rfl
  | cons d rest => simp [Cursor.take, ClassMember.holds, ClassMember.forms]

lemma Single.group (h : Single p test g) (n : Nat) : Single (group n p) test fun _ => some n := by
  intro next s
  rw [run, h]

lemma Single.alt {t u : Char → Bool} (hp : Single p t g) (hq : Single q u g)
    (hd : ∀ c, t c = true → u c = false) : Single (alt p q) (fun c => t c || u c) g := by
  rintro next ⟨rest, position, last⟩
  rw [run, hp, hq]
  cases rest with
  | nil => rfl
  | cons c rest =>
    by_cases hc : t c = true
    · simp only [Cursor.take, hc, hd c hc, if_true, Bool.true_or, Bool.false_eq_true, if_false]
      cases next ⟨rest, position + 1, g last⟩ <;> rfl
    · simp only [Bool.not_eq_true] at hc
      simp [Cursor.take, hc]

lemma Single.run_cons (h : Single p test g) (c : Char) (rest : List Char) (position : Nat) (last : Option Nat) :
    run false p next ⟨c :: rest, position, last⟩ = if test c then next ⟨rest, position + 1, g last⟩ else none :=
  h next _

def Cursor.past (s : Cursor) (n : Nat) (g : Option Nat → Option Nat) : Cursor :=
  ⟨s.rest.drop n, s.position + n, g^[n] s.lastGroup⟩

lemma repeatMost_single (h : Single p test g)
    (hn : Accepts next) : ∀ (rest : List Char) (fuel n position : Nat) (before last : Option Nat),
      rest.length < fuel → before ≠ some position →
      repeatMost (run false p) 0 none next fuel n before ⟨rest, position, last⟩ =
        next (Cursor.past ⟨rest, position, last⟩ (rest.takeWhile test).length g) := by
  intro rest
  induction rest with
  | nil =>
    intro fuel n position before last hf hb
    obtain ⟨fuel, rfl⟩ := Nat.exists_eq_add_one_of_ne_zero (by omega : fuel ≠ 0)
    simp [repeatMost, h _ _, Cursor.take, Cursor.past]
  | cons c rest ih =>
    intro fuel n position before last hf hb
    obtain ⟨fuel, rfl⟩ := Nat.exists_eq_add_one_of_ne_zero (by omega : fuel ≠ 0)
    have hlast : (before != some position) = true := by simpa using hb
    simp only [repeatMost, Nat.not_lt_zero, if_false, mayRepeat, hlast, Bool.and_self, if_true,
      h.run_cons]
    by_cases hc : test c = true
    · have hrest := ih fuel (n + 1) (position + 1) (some position) (g last)
        (by simp only [length_cons] at hf; omega) (by simp)
      obtain ⟨r, hr⟩ := Option.isSome_iff_exists.mp
        (hn (Cursor.past ⟨rest, position + 1, g last⟩ (rest.takeWhile test).length g))
      simp only [hc, if_true, hrest, hr, takeWhile_cons, length_cons]
      rw [← hr]
      congr 1
      simp only [Cursor.past, drop_succ_cons, Function.iterate_succ, Function.comp, Cursor.mk.injEq,
        true_and, and_true]
      omega
    · simp [hc, Cursor.past]

lemma run_times (h : Single p test g) (hn : Accepts next) (s : Cursor) :
    run false (times 0 none .most p) next s = next (s.past (s.rest.takeWhile test).length g) := by
  obtain ⟨rest, position, last⟩ := s
  exact repeatMost_single h hn rest _ 0 position none last (by simp only; omega) (by simp)

def literal : List Char → Pattern
  | [] => .empty
  | c :: rest => rest.foldl (fun p d => .seq p (.char d)) (.char c)

lemma run_char_then (c : Char) (w : List Char) (s : Cursor) :
    run false (char c) (fun s => if w.isPrefixOf s.rest then next (s.past w.length id) else none) s =
      if (c :: w).isPrefixOf s.rest then next (s.past (w.length + 1) id) else none := by
  obtain ⟨rest, position, last⟩ := s
  cases rest with
  | nil => simp [Cursor.take]
  | cons d rest =>
    rw [(single_char c).run_cons]
    by_cases hd : d = c
    · subst hd
      simp [Cursor.past, Nat.add_comm, Nat.add_left_comm]
    · simp [hd, Ne.symm hd]

lemma run_foldl_chars (w : List Char) (p : Pattern) (s : Cursor) :
    run false (w.foldl (fun p d => .seq p (.char d)) p) next s =
      run false p (fun s => if w.isPrefixOf s.rest then next (s.past w.length id) else none) s := by
  induction w generalizing p with
  | nil => simp [Cursor.past]
  | cons c w ih =>
    rw [foldl_cons, ih, run]
    congr 1
    funext s
    exact run_char_then c w s

lemma run_literal {w : List Char} (hw : w ≠ []) (s : Cursor) : run false (literal w) next s =
      if w.isPrefixOf s.rest then next (s.past w.length id) else none := by
  cases w with
  | nil => exact absurd rfl hw
  | cons c w => rw [literal, run_foldl_chars, run_char_then, length_cons]

def literals (number : Nat) (w : List Char) : List (List Char) → Pattern
  | [] => .group number (literal w)
  | v :: ws => .alt (.group number (literal w)) (literals (number + 1) v ws)

lemma run_literals (hn : Accepts next) (s : Cursor) (number : Nat) (w : List Char) (ws : List (List Char))
    (hw : ∀ v ∈ w :: ws, v ≠ []) :
    run false (literals number w ws) next s =
      (((w :: ws).zipIdx number).find? fun v => v.1.isPrefixOf s.rest).bind fun v =>
        next { s.past v.1.length id with lastGroup := some v.2 } := by
  induction ws generalizing number w with
  | nil =>
    rw [literals, run, run_literal (hw w (by simp))]
    by_cases h : w.isPrefixOf s.rest = true
    · simp [h]
    · simp [h]
  | cons v ws ih =>
    have hrest := ih (number + 1) v fun u hu => hw u (mem_cons_of_mem w hu)
    rw [literals, run, run, run_literal (hw w (by simp)), hrest, zipIdx_cons, find?_cons]
    by_cases h : w.isPrefixOf s.rest = true
    · obtain ⟨r, hr⟩ := Option.isSome_iff_exists.mp (hn { s.past w.length id with lastGroup := some number })
      simp [h, hr]
    · simp [h, find?_cons]

end LispKit.Pattern
