import LispKit.Proofs.Automaton.Family
import Mathlib.Algebra.Group.Nat.Defs

/-! Every collection is explored to its end: kernels are lists of distinct items, and the bound on the number of states
is at least the number of such lists. -/

namespace LispKit.Collection

open List

section Lists

variable {α : Type} {xs l : List α}

def listsUpTo (xs : List α) : Nat → List (List α)
  | 0 => [[]]
  | n + 1 => [] :: xs.flatMap fun x => (listsUpTo xs n).map (x :: ·)

lemma mem_listsUpTo (h : l ⊆ xs) {n : Nat} (hn : l.length ≤ n) : l ∈ listsUpTo xs n := by
  induction n generalizing l with
  | zero =>
    rw [length_eq_zero_iff.mp (Nat.le_zero.mp hn)]
    exact mem_singleton.mpr rfl
  | succ n ih =>
    cases l with
    | nil => exact mem_cons_self
    | cons a l =>
      rw [length_cons] at hn
      obtain ⟨ha, hl⟩ := cons_subset.mp h
      refine mem_cons_of_mem _ (mem_flatMap.mpr ⟨a, ha, ?_⟩)
      exact mem_map.mpr ⟨l, ih hl (by omega), rfl⟩

lemma length_listsUpTo_le (xs : List α) (n : Nat) : (listsUpTo xs n).length ≤ (xs.length + 1) ^ n := by
  induction n with
  | zero => exact Nat.le_refl _
  | succ n ih =>
    have hpos : 1 ≤ (xs.length + 1) ^ n := Nat.one_le_pow _ _ (Nat.succ_pos _)
    have hsum : (xs.flatMap fun x => (listsUpTo xs n).map (x :: ·)).length = xs.length * (listsUpTo xs n).length := by
      simp [length_flatMap]
    calc (listsUpTo xs (n + 1)).length = xs.length * (listsUpTo xs n).length + 1 := by
          rw [listsUpTo, length_cons, hsum]
      _ ≤ xs.length * (xs.length + 1) ^ n + (xs.length + 1) ^ n := Nat.add_le_add (Nat.mul_le_mul_left _ ih) hpos
      _ = (xs.length + 1) ^ (n + 1) := by rw [Nat.pow_succ', Nat.add_one_mul]

end Lists

variable {S : Type} [DecidableEq S] {g : Grammar S} {p : Production S}

section Items

def itemsIn (g : Grammar S) : List (Item S) :=
  g.all.flatMap fun p => (List.range (p.symbols.length + 1)).map p.dotted

omit [DecidableEq S] in
lemma length_itemsIn (g : Grammar S) : (itemsIn g).length = itemCount g := by
  unfold itemsIn itemCount
  induction g.all with
  | nil => rfl
  | cons p ps ih => rw [flatMap_cons, length_append, ih, length_map, length_range, foldr_cons]

omit [DecidableEq S] in
lemma mem_itemsIn {i : Item S} (h : Belongs g i) : i ∈ itemsIn g := by
  obtain ⟨p, hp, d, hd, rfl⟩ := h
  exact mem_flatMap.mpr ⟨p, hp, mem_map.mpr ⟨d, mem_range.mpr (Nat.lt_succ_of_le hd), rfl⟩⟩

end Items

section Nodup

omit [DecidableEq S] in
lemma advance_injective : Function.Injective (Item.advance : Item S → Item S) := by
  rintro ⟨_, _, _, d⟩ ⟨_, _, _, e⟩ h
  simpa [Item.advance] using h

variable {queue : List (Item S)} {listed : List Nat} {pr : Production S}

lemma mem_queue_or_begun {i : Item S} {n : Nat} (h : i ∈ closureFrom g n listed queue) :
    i ∈ queue ∨ ∃ s, ∃ pr ∈ g.productionsOf s, pr.number ∉ listed ∧ i = Item.start pr := by
  induction n generalizing listed queue with
  | zero => exact .inl h
  | succ n ih =>
    cases queue with
    | nil => cases h
    | cons item queue =>
      rw [closureFrom_cons] at h
      rcases mem_cons.mp h with rfl | h
      · exact .inl mem_cons_self
      · rcases ih h with h | ⟨s, pr, hpr, hl, rfl⟩
        · rcases mem_append.mp h with h | h
          · exact .inl (mem_cons_of_mem _ h)
          · obtain ⟨pr, hpr, rfl⟩ := mem_map.mp h
            obtain ⟨s, -, hpr, hl⟩ := mem_begun.mp hpr
            exact .inr ⟨s, pr, hpr, hl, rfl⟩
        · exact .inr ⟨s, pr, hpr, fun hmem => hl (mem_append_left _ hmem), rfl⟩

lemma number_ne_zero (hg : g.Numbered) {s : S} (h : pr ∈ g.productionsOf s) : pr.number ≠ 0 := by
  obtain ⟨n, hn, hpr⟩ := mem_filterMap.mp h
  rw [hg.number hpr]
  rintro rfl
  exact hg.positive s hn

structure Fresh (listed : List Nat) (queue : List (Item S)) : Prop where
  nodup : queue.Nodup
  listed : ∀ i ∈ queue, i.dot = 0 → i.number = 0 ∨ i.number ∈ listed

lemma Fresh.not_start (hg : g.Numbered) (h : Fresh listed queue) {s : S} (hpr : pr ∈ g.productionsOf s)
    (hl : pr.number ∉ listed) : Item.start pr ∉ queue := by
  intro hmem
  rcases h.listed _ hmem rfl with h0 | h0
  · exact number_ne_zero hg hpr h0
  · exact hl h0

lemma Fresh.begun (hg : g.Numbered) {item : Item S}
    (h : Fresh listed (item :: queue)) : Fresh (listed ++ (begun g listed item).map Production.number)
      (queue ++ (begun g listed item).map Item.start) := by
  have hstart : ∀ pr ∈ Collection.begun g listed item, Item.start pr ∉ item :: queue := by
    intro pr hpr
    obtain ⟨s, -, hpr, hl⟩ := mem_begun.mp hpr
    exact h.not_start hg hpr hl
  have hnumbers : ((Collection.begun g listed item).map Production.number).Nodup := by
    unfold Collection.begun
    cases item.next? with
    | none => exact nodup_nil
    | some s => exact (filter_sublist.map _).nodup (hg.nodup_numbers s)
  refine ⟨nodup_append'.mpr ⟨(nodup_cons.mp h.nodup).2, ?_, ?_⟩, ?_⟩
  · have hmap : (Collection.begun g listed item).map Production.number =
        ((Collection.begun g listed item).map Item.start).map Item.number := by
      rw [List.map_map]
      rfl
    rw [hmap] at hnumbers
    exact List.Nodup.of_map _ hnumbers
  · intro i hi hmem
    obtain ⟨pr, hpr, rfl⟩ := mem_map.mp hmem
    exact hstart pr hpr (mem_cons_of_mem _ hi)
  · intro i hi h0
    rcases mem_append.mp hi with hi | hi
    · exact (h.listed i (mem_cons_of_mem _ hi) h0).imp_right (mem_append_left _)
    · obtain ⟨pr, hpr, rfl⟩ := mem_map.mp hi
      exact .inr (mem_append_right _ (mem_map.mpr ⟨pr, hpr, rfl⟩))

lemma Fresh.closureFrom (hg : g.Numbered) {n : Nat} (h : Fresh listed queue) :
    (closureFrom g n listed queue).Nodup := by
  induction n generalizing listed queue with
  | zero => exact h.nodup
  | succ n ih =>
    cases queue with
    | nil => exact nodup_nil
    | cons item queue =>
      rw [closureFrom_cons, nodup_cons]
      refine ⟨?_, ih (h.begun hg)⟩
      intro hmem
      rcases mem_queue_or_begun hmem with hmem | ⟨s, pr, hpr, hl, rfl⟩
      · rcases mem_append.mp hmem with hmem | hmem
        · exact (nodup_cons.mp h.nodup).1 hmem
        · obtain ⟨pr, hpr, rfl⟩ := mem_map.mp hmem
          obtain ⟨s, -, hpr, hl⟩ := mem_begun.mp hpr
          exact h.not_start hg hpr hl mem_cons_self
      · exact h.not_start hg hpr (fun hmem => hl (mem_append_left _ hmem)) mem_cons_self

end Nodup

section Kernels

def IsKernel (p : Production S) (k : List (Item S)) : Prop :=
  k.Nodup ∧ (k = [Item.start p] ∨ ∀ i ∈ k, 0 < i.dot)

instance (k : List (Item S)) : Decidable (IsKernel p k) :=
  inferInstanceAs (Decidable (k.Nodup ∧ (k = [Item.start p] ∨ ∀ i ∈ k, 0 < i.dot)))

omit [DecidableEq S] in
lemma IsKernel.fresh (hp : p.number = 0) {k : List (Item S)} (h : IsKernel p k) : Fresh [] k := by
  refine ⟨h.1, fun i hi h0 => .inl ?_⟩
  rcases h.2 with rfl | h
  · rw [mem_singleton.mp hi]
    exact hp
  · exact absurd h0 (Nat.ne_of_gt (h i hi))

lemma isKernel_moved {items : List (Item S)} (h : items.Nodup) (s : S) : IsKernel p (moved items s) := by
  refine ⟨(h.filter _).map advance_injective, .inr fun i hi => ?_⟩
  obtain ⟨j, -, rfl⟩ := mem_map.mp hi
  exact Nat.succ_pos _

def kernelsIn (g : Grammar S) (p : Production S) : List (List (Item S)) :=
  (listsUpTo (itemsIn g) (itemCount g)).filter fun k => IsKernel p k

lemma mem_kernelsIn {k : List (Item S)} (hk : IsKernel p k) (hb : ∀ i ∈ k, Belongs g i) : k ∈ kernelsIn g p := by
  have hsub : k ⊆ itemsIn g := fun i hi => mem_itemsIn (hb i hi)
  have hlen := (subperm_of_subset hk.1 hsub).length_le
  rw [length_itemsIn] at hlen
  exact mem_filter.mpr ⟨mem_listsUpTo hsub hlen, decide_eq_true hk⟩

lemma mem_of_mem_listsUpTo {α : Type} {xs l : List α} {n : Nat} (h : l ∈ listsUpTo xs n) : l ⊆ xs := by
  induction n generalizing l with
  | zero =>
    rw [mem_singleton.mp h]
    exact nil_subset _
  | succ n ih =>
    rcases mem_cons.mp h with rfl | h
    · exact nil_subset _
    · obtain ⟨a, ha, h⟩ := mem_flatMap.mp h
      obtain ⟨l, hl, rfl⟩ := mem_map.mp h
      exact cons_subset.mpr ⟨ha, ih hl⟩

omit [DecidableEq S] in
lemma belongs_of_mem_itemsIn {i : Item S} (h : i ∈ itemsIn g) : Belongs g i := by
  obtain ⟨p, hp, h⟩ := mem_flatMap.mp h
  obtain ⟨d, hd, rfl⟩ := mem_map.mp h
  exact ⟨p, hp, d, Nat.le_of_lt_succ (mem_range.mp hd), rfl⟩

lemma family_kernelsIn (hg : g.Numbered) (hp : g.augmented = some p) : Family g p (kernelsIn g p) where
  first := by
    refine mem_kernelsIn ⟨nodup_singleton _, .inl rfl⟩ fun i hi => ?_
    rw [mem_singleton.mp hi]
    exact belongs_start (mem_append_left _ (by rw [hp]; exact mem_singleton.mpr rfl))
  moved k hk s _ := by
    obtain ⟨hsub, hkernel⟩ := mem_filter.mp hk
    have hkernel : IsKernel p k := of_decide_eq_true hkernel
    have hzero : p.number = 0 := hg.number (n := 0) hp
    have hb : ∀ i ∈ k, Belongs g i := fun i hi => belongs_of_mem_itemsIn (mem_of_mem_listsUpTo hsub hi)
    exact mem_kernelsIn (isKernel_moved ((hkernel.fresh hzero).closureFrom hg) s)
      fun i hi => belongs_moved (fun j hj => belongs_closure hg hb hj) hi

lemma length_kernelsIn_le (g : Grammar S) (p : Production S) : (kernelsIn g p).length ≤ stateLimit g :=
  calc (kernelsIn g p).length ≤ (listsUpTo (itemsIn g) (itemCount g)).length := length_filter_le _ _
    _ ≤ (itemCount g + 1) ^ itemCount g := by
      rw [← length_itemsIn]
      exact length_listsUpTo_le _ _
    _ ≤ stateLimit g := Nat.pow_le_pow_right (Nat.succ_pos _) (Nat.le_succ _)

end Kernels

theorem explored_build (hg : g.Numbered) (hp : g.augmented = some p) : Explored g p (build g p) :=
  (family_kernelsIn hg hp).explored (length_kernelsIn_le g p) hg hp

theorem nodup_itemsOf (hg : g.Numbered) (hp : g.augmented = some p) (q : Nat) : ((build g p).itemsOf q).Nodup := by
  unfold itemsOf
  split
  · exact nodup_nil
  · rename_i st hst
    have hmem := mem_of_getElem? hst
    obtain ⟨hwithin, -⟩ := (family_kernelsIn hg hp).within (length_kernelsIn_le g p)
    have hkernel : IsKernel p st.kernel := of_decide_eq_true (mem_filter.mp (hwithin.mem st hmem)).2
    rw [hwithin.items st hmem]
    exact (hkernel.fresh (hg.number (n := 0) hp)).closureFrom hg

end LispKit.Collection
