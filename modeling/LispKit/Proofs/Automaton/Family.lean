import LispKit.Proofs.Automaton.Collection

/-! Families of kernels: a list of kernels that has the first one and all that its members move to has the kernels of
all states, and if it is short enough then every state is treated. -/

namespace LispKit.Collection

open List

variable {S : Type} [DecidableEq S] {g g' : Grammar S} {p : Production S} {K : List (List (Item S))}
  {found : List (ItemSet S) × List (S × Nat)} {k : List (Item S)}

structure Family (g : Grammar S) (p : Production S) (K : List (List (Item S))) : Prop where
  first : [Item.start p] ∈ K
  moved : ∀ k ∈ K, ∀ s, moved (closure g k) s ≠ [] → moved (closure g k) s ∈ K

structure Within (g : Grammar S) (K : List (List (Item S))) (states : List (ItemSet S)) : Prop where
  items : ∀ st ∈ states, st.items = closure g st.kernel
  mem : ∀ st ∈ states, st.kernel ∈ K
  nodup : (states.map ItemSet.kernel).Nodup

lemma Within.length_le {states : List (ItemSet S)} (h : Within g K states) : states.length ≤ K.length := by
  have hsub : states.map ItemSet.kernel ⊆ K := by
    intro k hk
    obtain ⟨st, hst, rfl⟩ := mem_map.mp hk
    exact h.mem st hst
  have hle := (subperm_of_subset h.nodup hsub).length_le
  rwa [length_map] at hle

omit [DecidableEq S] in
lemma sameKernel_self (k : List (Item S)) : sameKernel k k = true := by
  induction k with
  | nil => rfl
  | cons i k ih =>
    rw [sameKernel, ih, Item.same]
    simp

lemma Within.addStep (hK : Family g p K) (hk : k ∈ K) (h : Within g K found.1) (s : S) :
    Within g K (addStep g (closure g k) found s).1 := by
  unfold Collection.addStep
  split
  · exact h
  · rename_i hne
    split
    · exact h
    · rename_i hnone
      rw [findIdx?_eq_none_iff] at hnone
      refine ⟨?_, ?_, ?_⟩
      · intro st hst
        rcases mem_append.mp hst with hst | hst
        · exact h.items st hst
        · rw [mem_singleton.mp hst]
      · intro st hst
        rcases mem_append.mp hst with hst | hst
        · exact h.mem st hst
        · rw [mem_singleton.mp hst]
          exact hK.moved k hk s hne
      · rw [map_append, map_singleton, ← concat_eq_append, nodup_concat]
        refine ⟨?_, h.nodup⟩
        intro hmem
        obtain ⟨st, hst, hkernel⟩ := mem_map.mp hmem
        have hsame := hnone st hst
        rw [hkernel, sameKernel_self] at hsame
        cases hsame

lemma Within.foldl (hK : Family g p K) (hk : k ∈ K) (ss : List S) (h : Within g K found.1) :
    Within g K (ss.foldl (Collection.addStep g (closure g k)) found).1 := by
  induction ss generalizing found with
  | nil => exact h
  | cons s ss ih => exact ih (h.addStep hK hk s)

lemma Within.exploreFrom (hK : Family g p K) {n : Nat} {c : Collection S} (h : Within g K c.states)
    (hn : K.length ≤ n + c.steps.length) : Within g K (exploreFrom g n c).states ∧
      (exploreFrom g n c).states.length ≤ (exploreFrom g n c).steps.length := by
  induction n generalizing c with
  | zero =>
    rw [Nat.zero_add] at hn
    exact ⟨h, Nat.le_trans h.length_le hn⟩
  | succ n ih =>
    rw [Collection.exploreFrom]
    split
    · rename_i hnone
      exact ⟨h, List.getElem?_eq_none_iff.mp hnone⟩
    · rename_i st hst
      have hmem := mem_of_getElem? hst
      apply ih
      · rw [h.items st hmem]
        exact h.foldl hK (h.mem st hmem) _
      · rw [length_append, length_singleton]
        omega

lemma Family.within (hK : Family g p K) (hlen : K.length ≤ stateLimit g) : Within g K (build g p).states ∧
    (build g p).states.length ≤ (build g p).steps.length := by
  refine Within.exploreFrom hK ⟨?_, ?_, ?_⟩ hlen
  · intro st hst
    rw [mem_singleton.mp hst]
  · intro st hst
    rw [mem_singleton.mp hst]
    exact hK.first
  · exact nodup_singleton _

theorem Family.explored (hK : Family g p K) (hlen : K.length ≤ stateLimit g) (hg : g.Numbered)
    (hp : g.augmented = some p) : Explored g p (build g p) where
  toExploring := exploring_build hg hp
  numbered := hg
  all := Nat.le_antisymm (exploring_build hg hp).bound (hK.within hlen).2

lemma closureFrom_congr (h : ∀ s, g.productionsOf s = g'.productionsOf s) (n : Nat) (listed : List Nat)
    (queue : List (Item S)) : closureFrom g n listed queue = closureFrom g' n listed queue := by
  induction n generalizing listed queue with
  | zero => rfl
  | succ n ih =>
    cases queue with
    | nil => rfl
    | cons item queue =>
      have hbegun : begun g listed item = begun g' listed item := by simp only [begun, h]
      rw [closureFrom_cons, closureFrom_cons, hbegun, ih]

lemma closure_congr (h : ∀ s, g.productionsOf s = g'.productionsOf s) (hsize : g.size = g'.size)
    (kernel : List (Item S)) : closure g kernel = closure g' kernel := by
  rw [closure, closure, hsize, closureFrom_congr h]

end LispKit.Collection
