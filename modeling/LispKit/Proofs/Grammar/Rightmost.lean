import LispKit.Proofs.Grammar.Derivation

/-! Rightmost derivations, with the productions that they use one after the other. -/

namespace LispKit

open List

variable {S : Type}

lemma append_split {s : S} {u v x y : List S} (h : u ++ v = x ++ s :: y) :
    (∃ rest, u = x ++ s :: rest ∧ y = rest ++ v) ∨ ∃ before, v = before ++ s :: y ∧ x = u ++ before := by
  rcases append_eq_append_iff.mp h with ⟨before, hx, hv⟩ | ⟨rest, hu, hright⟩
  · exact .inr ⟨before, hv, hx⟩
  · cases rest with
    | nil => exact .inr ⟨[], hright.symm, by rw [hu, append_nil, append_nil]⟩
    | cons a rest =>
      obtain ⟨rfl, rfl⟩ := List.cons.inj hright
      exact .inl ⟨rest, hu, rfl⟩

lemma append_cons_eq_singleton {s t : S} {u v : List S} (h : u ++ s :: v = [t]) : u = [] ∧ s = t ∧ v = [] := by
  rcases append_eq_singleton_iff.mp h with ⟨rfl, h⟩ | ⟨-, h⟩
  · exact ⟨rfl, List.cons.inj h⟩
  · cases h

inductive Rightmost (productions : List (Production S)) (terminal : S → Prop) :
    List (Production S) → List S → List S → Prop
  | refl (u : List S) : Rightmost productions terminal [] u u
  | step {pr : Production S} {used : List (Production S)} {u v w : List S} : pr ∈ productions → (∀ s ∈ v, terminal s) →
      Rightmost productions terminal used (u ++ pr.symbols ++ v) w →
      Rightmost productions terminal (pr :: used) (u ++ pr.name :: v) w

namespace Rightmost

variable {productions used used' : List (Production S)} {terminal : S → Prop} {u v w : List S} {pr : Production S}

lemma trans (h : Rightmost productions terminal used u v) (h' : Rightmost productions terminal used' v w) :
    Rightmost productions terminal (used ++ used') u w := by
  induction h with
  | refl => exact h'
  | step hpr hv _ ih => exact .step hpr hv (ih h')

lemma tail (h : Rightmost productions terminal used u (v ++ pr.name :: w)) (hpr : pr ∈ productions)
    (hw : ∀ s ∈ w, terminal s) : Rightmost productions terminal (used ++ [pr]) u (v ++ pr.symbols ++ w) :=
  h.trans (.step hpr hw (.refl _))

lemma append_left (h : Rightmost productions terminal used u v) (x : List S) :
    Rightmost productions terminal used (x ++ u) (x ++ v) := by
  induction h with
  | refl => exact .refl _
  | step hpr hv _ ih =>
    rw [← append_assoc]
    refine .step hpr hv ?_
    rwa [← append_assoc, ← append_assoc] at ih

lemma append_right (h : Rightmost productions terminal used u v) {y : List S} (hy : ∀ s ∈ y, terminal s) :
    Rightmost productions terminal used (u ++ y) (v ++ y) := by
  induction h with
  | refl => exact .refl _
  | step hpr hv _ ih =>
    rw [append_assoc, cons_append]
    refine .step hpr (fun s hs => ?_) ?_
    · rcases mem_append.mp hs with hs | hs
      · exact hv s hs
      · exact hy s hs
    · rwa [append_assoc] at ih

lemma expand {before rest x : List S} {s : S} (h : Rightmost productions terminal used u (v ++ pr.name :: w))
    (hpr : pr ∈ productions) (hw : ∀ s ∈ w, terminal s) (hsym : pr.symbols = before ++ s :: rest)
    (hrest : Rightmost productions terminal used' rest x) :
    Rightmost productions terminal (used ++ [pr] ++ used') u (v ++ before ++ s :: (x ++ w)) := by
  have hfirst := h.tail hpr hw
  have hlast := (hrest.append_right hw).append_left (v ++ before ++ [s])
  have hmiddle : v ++ pr.symbols ++ w = v ++ before ++ [s] ++ (rest ++ w) := by
    rw [hsym]
    simp
  rw [append_assoc _ [s] (x ++ w)] at hlast
  rw [hmiddle] at hfirst
  exact hfirst.trans hlast

lemma exists_of_forall {final : S → Prop} (hfinal : ∀ s, final s → terminal s) {symbols : List S}
    (h : ∀ s ∈ symbols, ∃ used w, (∀ t ∈ w, final t) ∧ Rightmost productions terminal used [s] w) :
    ∃ used w, (∀ t ∈ w, final t) ∧ Rightmost productions terminal used symbols w := by
  induction symbols with
  | nil => exact ⟨[], [], forall_mem_nil _, .refl _⟩
  | cons s symbols ih =>
    rw [forall_mem_cons] at h
    obtain ⟨used, w, hw, hs⟩ := h.1
    obtain ⟨used', x, hx, hsymbols⟩ := ih h.2
    refine ⟨used' ++ used, w ++ x, forall_mem_append.mpr ⟨hw, hx⟩, ?_⟩
    exact (hsymbols.append_left [s]).trans (hs.append_right fun t ht => hfinal t (hx t ht))

lemma derives (h : Rightmost productions terminal used u v) :
    Derives (productions.map fun pr => (pr.name, pr.symbols)) u v := by
  induction h with
  | refl => exact .refl
  | @step pr _ u v _ hpr _ _ ih => exact .head (.rule u v (mem_map.mpr ⟨pr, hpr, rfl⟩)) ih

end Rightmost

end LispKit
