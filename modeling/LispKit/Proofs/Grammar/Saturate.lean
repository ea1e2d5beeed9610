import LispKit.Proofs.Grammar.Declare
import Mathlib.Data.List.Forall2
import Mathlib.Data.List.Perm.Subperm

/-! Tables of symbols that grow round by round: within the bound of rounds there is one that adds nothing. -/

namespace LispKit

open List Registry

section Registry

variable {κ ν : Type} [DecidableEq κ]

lemma Registry.getD_insert (r : Registry κ ν) (k l : κ) (v d : ν) :
    (r.insert k v).getD l d = if k = l then v else r.getD l d := by
  split
  · rename_i h
    subst h
    rw [getD, get?_insert_self, Option.getD_some]
  · rename_i h
    rw [getD, get?_insert_of_ne _ _ (beq_eq_false_iff_ne.mpr h), getD]

lemma Registry.getD_foldl_insert (ks : List κ) (f : κ → ν) (r : Registry κ ν) (l : κ) (d : ν) :
    (ks.foldl (fun r k => r.insert k (f k)) r).getD l d = if l ∈ ks then f l else r.getD l d := by
  induction ks generalizing r with
  | nil => simp
  | cons k ks ih =>
    rw [foldl_cons, ih, getD_insert]
    by_cases hk : k = l
    · subst hk
      simp
    · simp [hk, Ne.symm hk]

end Registry

namespace Grammar

variable {S α : Type} {t u v : Registry S (List S)}

def Grows (t u : Registry S (List S)) : Prop :=
  List.Forall₂ (fun e f => f.1 = e.1 ∧ e.2 <+: f.2) t.entries u.entries

lemma Grows.refl (t : Registry S (List S)) : Grows t t :=
  forall₂_same.mpr fun _ _ => ⟨rfl, prefix_refl _⟩

lemma volume_cons (e : S × List S) (es : List (S × List S)) : volume ⟨e :: es⟩ = e.2.length + volume ⟨es⟩ :=
  rfl

lemma Grows.trans (h : Grows t u) (h' : Grows u v) : Grows t v := by
  obtain ⟨t⟩ := t
  obtain ⟨u⟩ := u
  obtain ⟨v⟩ := v
  unfold Grows at *
  dsimp only at *
  induction h generalizing v with
  | nil => exact h'
  | cons he _ ih =>
    cases h' with
    | cons he' htail => exact .cons ⟨he'.1.trans he.1, he.2.trans he'.2⟩ (ih _ htail)

lemma Grows.volume_le (h : Grows t u) : volume t ≤ volume u := by
  obtain ⟨t⟩ := t
  obtain ⟨u⟩ := u
  unfold Grows at h
  dsimp only at h
  induction h with
  | nil => exact Nat.le_refl _
  | cons he _ ih =>
    rw [volume_cons, volume_cons]
    exact Nat.add_le_add he.2.length_le ih

lemma Grows.eq_of_volume (h : Grows t u) (hvolume : volume u = volume t) : u = t := by
  obtain ⟨t⟩ := t
  obtain ⟨u⟩ := u
  unfold Grows at h
  dsimp only at h
  congr 1
  induction h with
  | nil => rfl
  | @cons e f es fs he htail ih =>
    rw [volume_cons, volume_cons] at hvolume
    have hle := Grows.volume_le (t := ⟨es⟩) (u := ⟨fs⟩) htail
    have hlen := he.2.length_le
    rw [ih (by omega), Prod.ext he.1 (he.2.eq_of_length (by omega)).symm]

/-- A pass over steps that only add something, each as long as a property holds: if the whole adds nothing, then no
step does. -/
lemma foldl_grows {I : Registry S (List S) → Prop} {step : Registry S (List S) → α → Registry S (List S)} {as : List α}
    (hstep : ∀ a ∈ as, ∀ t, I t → I (step t a) ∧ Grows t (step t a)) (ht : I t) :
    I (as.foldl step t) ∧ Grows t (as.foldl step t) ∧
      (volume (as.foldl step t) = volume t → ∀ a ∈ as, step t a = t) := by
  induction as generalizing t with
  | nil => exact ⟨ht, .refl t, fun _ => forall_mem_nil _⟩
  | cons a as ih =>
    obtain ⟨ha, has⟩ := forall_mem_cons.mp hstep
    obtain ⟨hI, hgrows⟩ := ha t ht
    obtain ⟨hlast, hrest, hsame⟩ := ih has hI
    refine ⟨hlast, hgrows.trans hrest, fun hvolume => ?_⟩
    rw [foldl_cons] at hvolume
    have hle := hgrows.volume_le
    have hle' := hrest.volume_le
    have hfirst : step t a = t := hgrows.eq_of_volume (by omega)
    rw [hfirst] at hsame hvolume
    exact forall_mem_cons.mpr ⟨hfirst, hsame hvolume⟩

lemma holds_saturate {I C : Registry S (List S) → Prop} {round : Registry S (List S) → Registry S (List S)} {bound : Nat}
    (hround : ∀ t, I t → I (round t) ∧ Grows t (round t)) (hbound : ∀ t, I t → volume t ≤ bound)
    (hfixed : ∀ t, I t → round t = t → C t) (n : Nat) (ht : I t) (hn : bound < n + volume t) :
    I (saturate round n t) ∧ C (saturate round n t) := by
  induction n generalizing t with
  | zero => exact absurd (hbound t ht) (by omega)
  | succ n ih =>
    obtain ⟨hI, hgrows⟩ := hround t ht
    rw [saturate]
    split
    · rename_i hvolume
      have hsame := hgrows.eq_of_volume hvolume
      rw [hsame]
      exact ⟨ht, hfixed t ht hsame⟩
    · have hle := hgrows.volume_le
      exact ih hI (by omega)

variable [DecidableEq S] {k : S} {xs ys : List S}

lemma mem_merge {a : S} : a ∈ merge xs ys ↔ a ∈ xs ∨ a ∈ ys :=
  mem_foldl_distinct ys xs a

lemma nodup_merge (h : xs.Nodup) : (merge xs ys).Nodup :=
  nodup_foldl_distinct ys h

lemma prefix_merge (xs ys : List S) : xs <+: merge xs ys := by
  unfold merge
  induction ys generalizing xs with
  | nil => exact prefix_refl xs
  | cons y ys ih =>
    rw [foldl_cons]
    split
    · exact ih xs
    · exact (prefix_append xs [y]).trans (ih _)

def add (t : Registry S (List S)) (k : S) (xs : List S) : Registry S (List S) :=
  t.update k [] (merge · xs)

lemma mem_add {a b : S} : a ∈ (add t k xs).getD b [] ↔ a ∈ t.getD b [] ∨ k = b ∧ a ∈ xs := by
  by_cases hk : k = b
  · subst hk
    rw [add, getD_update_self, mem_merge]
    simp
  · rw [add, getD_update_of_ne _ _ _ hk]
    simp [hk]

lemma entries_add (h : k ∈ t.keys) :
    (add t k xs).entries = t.entries.map fun e => if e.1 = k then (e.1, merge (t.getD k []) xs) else e := by
  rw [add, Registry.update, Registry.insert, if_pos ((contains_iff_mem_keys _ _).mpr h)]
  simp only [beq_iff_eq]

lemma entry_insert (h : ∀ e ∈ t.entries, e.2 = t.getD e.1 []) :
    ∀ e ∈ (t.insert k xs).entries, e.2 = (t.insert k xs).getD e.1 [] := by
  intro e he
  rw [getD_insert]
  unfold Registry.insert at he
  split at he
  · obtain ⟨f, hf, rfl⟩ := mem_map.mp he
    by_cases hfk : f.1 = k
    · simp [hfk]
    · simp only [beq_iff_eq, if_neg hfk, if_neg (Ne.symm hfk)]
      exact h f hf
  · rename_i hnot
    rcases mem_append.mp he with hold | hnew
    · have hek : k ≠ e.1 := fun hek => hnot ((contains_iff_mem_keys _ _).mpr (hek ▸ mem_map_of_mem hold))
      rw [if_neg hek]
      exact h e hold
    · rw [mem_singleton.mp hnew, if_pos rfl]

structure Tabled (keys pool : List S) (t : Registry S (List S)) : Prop where
  keys : t.keys = keys
  entry : ∀ e ∈ t.entries, e.2 = t.getD e.1 []
  nodup : ∀ k, (t.getD k []).Nodup
  within : ∀ k, ∀ x ∈ t.getD k [], x ∈ pool

namespace Tabled

variable {keys pool : List S}

lemma add (h : Tabled keys pool t) (hk : k ∈ keys) (hxs : ∀ x ∈ xs, x ∈ pool) : Tabled keys pool (add t k xs) where
  keys := by
    rw [Grammar.add, Registry.update, keys_insert,
      if_pos ((contains_iff_mem_keys _ _).mpr (h.keys ▸ hk)), h.keys]
  entry := entry_insert h.entry
  nodup b := by
    by_cases hk : k = b
    · subst hk
      rw [Grammar.add, getD_update_self]
      exact nodup_merge (h.nodup k)
    · rw [Grammar.add, getD_update_of_ne _ _ _ hk]
      exact h.nodup b
  within b x hx := by
    rcases mem_add.mp hx with hx | ⟨-, hx⟩
    · exact h.within b x hx
    · exact hxs x hx

lemma grows (h : Tabled keys pool t) (hk : k ∈ keys) (xs : List S) : Grows t (Grammar.add t k xs) := by
  unfold Grows
  rw [entries_add (h.keys ▸ hk), forall₂_map_right_iff]
  refine forall₂_same.mpr fun e he => ?_
  split
  · rename_i hek
    refine ⟨rfl, ?_⟩
    rw [h.entry e he, hek]
    exact prefix_merge _ _
  · exact ⟨rfl, prefix_refl _⟩

lemma volume_le (h : Tabled keys pool t) : volume t ≤ keys.length * pool.length := by
  have hlen : ∀ e ∈ t.entries, e.2.length ≤ pool.length := by
    intro e he
    rw [h.entry e he]
    exact (subperm_of_subset (h.nodup e.1) (h.within e.1)).length_le
  have hkeys : keys.length = t.entries.length := by rw [← h.keys, Registry.keys, length_map]
  rw [hkeys]
  obtain ⟨entries⟩ := t
  clear h hkeys
  induction entries with
  | nil => exact Nat.zero_le _
  | cons e es ih =>
    obtain ⟨he, hes⟩ := forall_mem_cons.mp hlen
    rw [volume_cons, length_cons, Nat.succ_mul, Nat.add_comm]
    exact Nat.add_le_add (ih hes) he

end Tabled

end Grammar

end LispKit
