/-! Registries: finite maps that remember in which order their keys first came. -/

namespace LispKit

structure Registry (κ ν : Type) where
  entries : List (κ × ν)

namespace Registry

variable {κ ν : Type} [BEq κ]

instance : Inhabited (Registry κ ν) := ⟨⟨[]⟩⟩

instance : EmptyCollection (Registry κ ν) := ⟨⟨[]⟩⟩

def keys (r : Registry κ ν) : List κ :=
  r.entries.map Prod.fst

def values (r : Registry κ ν) : List ν :=
  r.entries.map Prod.snd

def isEmpty (r : Registry κ ν) : Bool :=
  r.entries.isEmpty

def get? (r : Registry κ ν) (k : κ) : Option ν :=
  (r.entries.find? fun e => e.1 == k).map Prod.snd

def getD (r : Registry κ ν) (k : κ) (default : ν) : ν :=
  (r.get? k).getD default

def contains (r : Registry κ ν) (k : κ) : Bool :=
  r.entries.any fun e => e.1 == k

/-- Binds a key: an old key keeps its place, a new one comes last. -/
def insert (r : Registry κ ν) (k : κ) (v : ν) : Registry κ ν :=
  if r.contains k then ⟨r.entries.map fun e => if e.1 == k then (e.1, v) else e⟩
  else ⟨r.entries ++ [(k, v)]⟩

def insertIfNew (r : Registry κ ν) (k : κ) (v : ν) : Registry κ ν :=
  if r.contains k then r else r.insert k v

def update (r : Registry κ ν) (k : κ) (default : ν) (f : ν → ν) : Registry κ ν :=
  r.insert k (f (r.getD k default))

theorem contains_iff_mem_keys [LawfulBEq κ] (r : Registry κ ν) (k : κ) : r.contains k = true ↔ k ∈ r.keys := by
  simp only [contains, keys, List.any_eq_true, List.mem_map, beq_iff_eq]

theorem keys_insert (r : Registry κ ν) (k : κ) (v : ν) :
    (r.insert k v).keys = if r.contains k then r.keys else r.keys ++ [k] := by
  unfold insert
  split
  · simp only [keys, List.map_map]
    apply List.map_congr_left
    intro e _
    simp only [Function.comp]
    split <;> rfl
  · simp [keys]

theorem get?_insert_self [ReflBEq κ] (r : Registry κ ν) (k : κ) (v : ν) : (r.insert k v).get? k = some v := by
  unfold insert
  split
  · rename_i h
    obtain ⟨entries⟩ := r
    simp only [contains] at h
    simp only [get?]
    induction entries with
    | nil => simp at h
    | cons e rest ih =>
      by_cases he : (e.1 == k) = true
      · simp [he]
      · simp only [List.any_cons, he, Bool.false_or] at h
        rw [List.map_cons, if_neg he, List.find?_cons_of_neg (by simpa using he)]
        exact ih h
  · rename_i h
    obtain ⟨entries⟩ := r
    simp only [contains] at h
    simp only [get?]
    have hn : List.find? (fun e => e.1 == k) entries = none := by
      rw [List.find?_eq_none]
      intro e he
      simp only [List.any_eq_true, not_exists, not_and] at h
      exact h e he
    simp [List.find?_append, hn]

theorem mem_of_get? {r : Registry κ ν} {k : κ} {v : ν} (h : r.get? k = some v) :
    ∃ e ∈ r.entries, (e.1 == k) = true ∧ e.2 = v := by
  obtain ⟨e, he, rfl⟩ := Option.map_eq_some_iff.mp h
  have hk := List.find?_some he
  exact ⟨e, List.mem_of_find?_eq_some he, hk, rfl⟩

/-- An entry is an old one, or the new value stands under the new key or under an old one equal to it. -/
theorem mem_insert {r : Registry κ ν} {k : κ} {v : ν} {e : κ × ν} (h : e ∈ (r.insert k v).entries) :
    e ∈ r.entries ∨ e.2 = v ∧ (e.1 = k ∨ (e.1 == k) = true ∧ e.1 ∈ r.keys) := by
  unfold insert at h
  split at h
  · obtain ⟨e', he', rfl⟩ := List.mem_map.mp h
    split
    · rename_i hk
      exact .inr ⟨rfl, .inr ⟨hk, List.mem_map.mpr ⟨e', he', rfl⟩⟩⟩
    · exact .inl he'
  · obtain h | h := List.mem_append.mp h
    · exact .inl h
    · obtain rfl := List.mem_singleton.mp h
      exact .inr ⟨rfl, .inl rfl⟩

theorem get?_insert_of_ne [PartialEquivBEq κ] (r : Registry κ ν) {k k' : κ} (v : ν) (h : (k == k') = false) :
    (r.insert k v).get? k' = r.get? k' := by
  have hne : ∀ e : κ × ν, (e.1 == k) = true → (e.1 == k') = false := by
    intro e he
    cases hk : e.1 == k' with
    | false => rfl
    | true =>
      rw [BEq.trans (BEq.symm he) hk] at h
      cases h
  have hmap : ∀ es : List (κ × ν), ((es.map fun e => if e.1 == k then (e.1, v) else e).find?
      fun e => e.1 == k').map Prod.snd = (es.find? fun e => e.1 == k').map Prod.snd := by
    intro es
    induction es with
    | nil => rfl
    | cons e rest ih =>
      rw [List.map_cons, List.find?_cons, List.find?_cons]
      by_cases he : (e.1 == k) = true
      · simp only [if_pos he, hne e he, ih]
      · simp only [if_neg he]
        split
        · rfl
        · exact ih
  unfold insert
  split
  · exact hmap r.entries
  · simp [get?, List.find?_append, h]

end Registry

end LispKit
