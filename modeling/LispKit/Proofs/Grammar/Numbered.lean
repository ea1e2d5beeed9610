import LispKit.Grammar.Basic
import Mathlib.Data.List.Nodup

/-! Numbered grammars: the productions of a name are those that its numbers lead to. -/

namespace LispKit

open List

variable {S : Type} [DecidableEq S]

section Distinct

variable {α : Type} [BEq α] [LawfulBEq α]

lemma mem_foldl_distinct (xs seen : List α) (a : α) :
    a ∈ xs.foldl (fun seen x => if seen.contains x then seen else seen ++ [x]) seen ↔ a ∈ seen ∨ a ∈ xs := by
  induction xs generalizing seen with
  | nil => simp
  | cons x xs ih =>
    rw [foldl_cons, ih]
    by_cases hx : seen.contains x = true
    · rw [if_pos hx, mem_cons]
      have hmem : x ∈ seen := by simpa using hx
      constructor
      · rintro (h | h)
        · exact .inl h
        · exact .inr (.inr h)
      · rintro (h | rfl | h)
        · exact .inl h
        · exact .inl hmem
        · exact .inr h
    · rw [if_neg hx, mem_append, mem_singleton, mem_cons, or_assoc]

@[simp] lemma mem_distinct {xs : List α} {a : α} : a ∈ distinct xs ↔ a ∈ xs := by
  rw [distinct, mem_foldl_distinct]
  simp

lemma nodup_foldl_distinct (xs : List α) {seen : List α} (h : seen.Nodup) :
    (xs.foldl (fun seen x => if seen.contains x then seen else seen ++ [x]) seen).Nodup := by
  induction xs generalizing seen with
  | nil => exact h
  | cons x xs ih =>
    rw [foldl_cons]
    apply ih
    split
    · exact h
    · rename_i hx
      rw [← concat_eq_append, nodup_concat]
      exact ⟨by simpa using hx, h⟩

end Distinct

section Lookup

variable {κ ν : Type} [BEq κ] [LawfulBEq κ] {l : List (κ × ν)} {k : κ} {v : ν}

lemma mem_of_lookup (h : l.lookup k = some v) : (k, v) ∈ l := by
  obtain ⟨before, after, rfl, -⟩ := lookup_eq_some_iff.mp h
  exact mem_append_right _ mem_cons_self

lemma lookup_of_mem (hl : (l.map Prod.fst).Nodup) (h : (k, v) ∈ l) : l.lookup k = some v := by
  induction l with
  | nil => cases h
  | cons e l ih =>
    obtain ⟨k', v'⟩ := e
    rw [map_cons, nodup_cons] at hl
    rcases mem_cons.mp h with h | h
    · obtain ⟨rfl, rfl⟩ := Prod.mk.inj h
      exact lookup_cons_self
    · have hne : (k == k') = false := by
        rw [beq_eq_false_iff_ne]
        rintro rfl
        exact hl.1 (mem_map.mpr ⟨(k, v), ‹_›, rfl⟩)
      rw [lookup_cons, hne]
      exact ih hl.2 h

end Lookup

lemma Registry.eq_empty {κ ν : Type} {r : Registry κ ν} (h : r.entries = []) : r = {} := by
  cases r
  exact congrArg _ h

structure Grammar.Numbered (g : Grammar S) : Prop where
  number : ∀ {n p}, g.production? n = some p → p.number = n
  nodup : ∀ s, (g.rules.getD s []).Nodup
  positive : ∀ s, 0 ∉ g.rules.getD s []
  name : ∀ {s p}, p ∈ g.productionsOf s → p.name = s
  mem : ∀ {p}, p ∈ g.productions → p ∈ g.productionsOf p.name

lemma Grammar.numbered_of_entries {g : Grammar S} (hfirst : ∀ p ∈ g.augmented, p.number = 0)
    (hnumber : ∀ e ∈ g.productions.zipIdx, e.1.number = e.2 + 1)
    (hrules : ∀ e ∈ g.rules.entries, e.2.Nodup ∧ 0 ∉ e.2 ∧ ∀ p ∈ e.2.filterMap g.production?, p.name = e.1)
    (hmem : ∀ p ∈ g.productions, p.number ∈ g.rules.getD p.name []) : g.Numbered := by
  have hplace : ∀ {n p}, g.productions[n]? = some p → p.number = n + 1 := by
    intro n p hp
    exact hnumber (p, n) (mem_zipIdx_iff_getElem?.mpr hp)
  have hentry : ∀ s, g.rules.getD s [] = [] ∨ (s, g.rules.getD s []) ∈ g.rules.entries := by
    intro s
    rw [Registry.getD]
    cases hs : g.rules.get? s with
    | none => exact .inl rfl
    | some ns =>
      obtain ⟨⟨k, ns⟩, he, hk, rfl⟩ := Registry.mem_of_get? hs
      obtain rfl := eq_of_beq hk
      exact .inr he
  refine ⟨?_, ?_, ?_, ?_, ?_⟩
  · intro n p hp
    cases n with
    | zero => exact hfirst p hp
    | succ n => exact hplace hp
  · intro s
    rcases hentry s with hs | hs
    · rw [hs]
      exact nodup_nil
    · exact (hrules _ hs).1
  · intro s
    rcases hentry s with hs | hs
    · rw [hs]
      exact not_mem_nil
    · exact (hrules _ hs).2.1
  · intro s p hp
    rw [Grammar.productionsOf] at hp
    rcases hentry s with hs | hs
    · rw [hs] at hp
      cases hp
    · exact (hrules _ hs).2.2 p hp
  · intro p hp
    obtain ⟨n, hn⟩ := mem_iff_getElem?.mp hp
    refine mem_filterMap.mpr ⟨p.number, hmem p hp, ?_⟩
    rw [hplace hn]
    exact hn

namespace Grammar.Numbered

variable {g : Grammar S} (hg : g.Numbered) {p q : Production S}

include hg

lemma mem_productions {s : S} (h : p ∈ g.productionsOf s) : p ∈ g.productions := by
  obtain ⟨n, hn, hp⟩ := mem_filterMap.mp h
  cases n with
  | zero => exact absurd hn (hg.positive s)
  | succ n => exact mem_of_getElem? hp

lemma mem_all {s : S} (h : p ∈ g.productionsOf s) : p ∈ g.all :=
  mem_append_right _ (hg.mem_productions h)

lemma production?_number (h : p ∈ g.all) : g.production? p.number = some p := by
  rcases mem_append.mp h with h | h
  · have hp : g.production? 0 = some p := Option.mem_toList.mp h
    rwa [hg.number hp]
  · obtain ⟨n, hn⟩ := mem_iff_getElem?.mp h
    have hp : g.production? (n + 1) = some p := hn
    rwa [hg.number hp]

lemma eq_of_number (hp : p ∈ g.all) (hq : q ∈ g.all) (h : p.number = q.number) : p = q := by
  have := hg.production?_number hp
  rw [h, hg.production?_number hq] at this
  exact (Option.some.inj this).symm

lemma nodup_numbers (s : S) : ((g.productionsOf s).map Production.number).Nodup := by
  have hsub : ((g.productionsOf s).map Production.number).Sublist (g.rules.getD s []) := by
    unfold Grammar.productionsOf
    induction g.rules.getD s [] with
    | nil => exact .slnil
    | cons n ns ih =>
      rw [filterMap_cons]
      cases hp : g.production? n with
      | none => exact ih.cons n
      | some p =>
        rw [map_cons, hg.number hp]
        exact ih.cons_cons n
  exact hsub.nodup (hg.nodup s)

end Grammar.Numbered

end LispKit
