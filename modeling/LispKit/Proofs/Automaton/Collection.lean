import LispKit.Automaton.Collection
import LispKit.Proofs.Grammar.Numbered
import Mathlib.Data.List.Perm.Subperm

/-! Item sets: what a closure holds, and what the steps of an explored collection lead to. -/

namespace LispKit

open List

variable {S : Type} [DecidableEq S]

def Production.dotted (p : Production S) (d : Nat) : Item S :=
  ⟨p.number, p.name, p.symbols, d⟩

def Item.last? (i : Item S) : Option S :=
  (i.symbols.take i.dot).getLast?

omit [DecidableEq S] in
lemma Item.last?_advance {i : Item S} {s : S} (h : i.next? = some s) : i.advance.last? = some s := by
  have h : i.symbols[i.dot]? = some s := h
  simp [Item.last?, Item.advance, take_add_one, h]

namespace Collection

variable {g : Grammar S} {listed : List Nat} {queue items : List (Item S)} {found : List (ItemSet S) × List (S × Nat)}
  {n : Nat} {before : List (ItemSet S)}

def begun (g : Grammar S) (listed : List Nat) (item : Item S) : List (Production S) :=
  match item.next? with
  | none => []
  | some s => (g.productionsOf s).filter fun p => !listed.contains p.number

lemma closureFrom_cons (g : Grammar S) (n : Nat) (listed : List Nat) (item : Item S) (queue : List (Item S)) :
    closureFrom g (n + 1) listed (item :: queue) =
      item :: closureFrom g n (listed ++ (begun g listed item).map Production.number)
        (queue ++ (begun g listed item).map Item.start) := rfl

lemma mem_begun {item : Item S} {p : Production S} :
    p ∈ begun g listed item ↔ ∃ s, item.next? = some s ∧ p ∈ g.productionsOf s ∧ p.number ∉ listed := by
  unfold begun
  cases h : item.next? with
  | none => simp
  | some s => simp

lemma mem_closureFrom_of_mem {i : Item S} (h : i ∈ queue) : i ∈ closureFrom g n listed queue := by
  induction n generalizing listed queue with
  | zero => exact h
  | succ n ih =>
    cases queue with
    | nil => cases h
    | cons item queue =>
      rw [closureFrom_cons]
      rcases mem_cons.mp h with rfl | h
      · exact mem_cons_self
      · exact mem_cons_of_mem _ (ih (mem_append_left _ h))

lemma origin_closureFrom {i : Item S} (h : i ∈ closureFrom g n listed queue) :
    i ∈ queue ∨ ∃ j ∈ closureFrom g n listed queue, ∃ s, j.next? = some s ∧
      ∃ p ∈ g.productionsOf s, i = Item.start p := by
  induction n generalizing listed queue with
  | zero => exact .inl h
  | succ n ih =>
    cases queue with
    | nil => cases h
    | cons item queue =>
      rw [closureFrom_cons] at h ⊢
      rcases mem_cons.mp h with rfl | h
      · exact .inl mem_cons_self
      · rcases ih h with h | ⟨j, hj, s, hs, p, hp, hi⟩
        · rcases mem_append.mp h with h | h
          · exact .inl (mem_cons_of_mem _ h)
          · obtain ⟨p, hp, rfl⟩ := mem_map.mp h
            obtain ⟨s, hs, hps, -⟩ := mem_begun.mp hp
            exact .inr ⟨item, mem_cons_self, s, hs, p, hps, rfl⟩
        · exact .inr ⟨j, mem_cons_of_mem _ hj, s, hs, p, hp, hi⟩

lemma of_mem_closureFrom {P : Item S → Prop}
    (hbegun : ∀ {i s p}, P i → i.next? = some s → p ∈ g.productionsOf s → P (Item.start p)) {i : Item S}
    (hqueue : ∀ i ∈ queue, P i) (h : i ∈ closureFrom g n listed queue) : P i := by
  induction n generalizing listed queue with
  | zero => exact hqueue i h
  | succ n ih =>
    cases queue with
    | nil => cases h
    | cons item queue =>
      rw [forall_mem_cons] at hqueue
      rw [closureFrom_cons] at h
      rcases mem_cons.mp h with rfl | h
      · exact hqueue.1
      · refine ih (forall_mem_append.mpr ⟨hqueue.2, fun j hj => ?_⟩) h
        obtain ⟨p, hp, rfl⟩ := mem_map.mp hj
        obtain ⟨s, hs, hps, -⟩ := mem_begun.mp hp
        exact hbegun hqueue.1 hs hps

def unlisted (g : Grammar S) (listed : List Nat) : Nat :=
  ((g.productions.map Production.number).filter fun n => !listed.contains n).length

lemma unlisted_append (hg : g.Numbered) (listed : List Nat) (item : Item S) :
    unlisted g (listed ++ (begun g listed item).map Production.number) + (begun g listed item).length ≤
      unlisted g listed := by
  set numbers := (begun g listed item).map Production.number with hnumbers
  set left := (g.productions.map Production.number).filter fun n => !listed.contains n with hleft
  have hnodup : numbers.Nodup := by
    rw [hnumbers, begun]
    cases item.next? with
    | none => exact nodup_nil
    | some s => exact (filter_sublist.map _).nodup (hg.nodup_numbers s)
  have hsub : numbers ⊆ left.filter fun n => numbers.contains n := by
    intro n hn
    obtain ⟨p, hp, rfl⟩ := mem_map.mp hn
    obtain ⟨s, -, hps, hl⟩ := mem_begun.mp hp
    rw [mem_filter, hleft, mem_filter]
    exact ⟨⟨mem_map.mpr ⟨p, hg.mem_productions hps, rfl⟩, by simpa using hl⟩, by simpa using hn⟩
  have hle := (subperm_of_subset hnodup hsub).length_le
  have hsplit : (left.filter fun n => numbers.contains n).length +
      (left.filter fun n => !numbers.contains n).length = left.length := by
    have h := length_eq_length_filter_add (l := left) (numbers.contains ·)
    exact h.symm
  have hrest : (left.filter fun n => !numbers.contains n).length = unlisted g (listed ++ numbers) := by
    rw [hleft, filter_filter, unlisted]
    congr 2
    funext n
    simp [Bool.and_comm]
  have hlen : numbers.length = (begun g listed item).length := by rw [hnumbers, length_map]
  have hall : unlisted g listed = left.length := rfl
  omega

lemma closed_closureFrom (hg : g.Numbered) {i : Item S} {s : S} {p : Production S}
    (hn : queue.length + unlisted g listed ≤ n) (h : i ∈ closureFrom g n listed queue) (hs : i.next? = some s)
    (hp : p ∈ g.productionsOf s) : Item.start p ∈ closureFrom g n listed queue ∨ p.number ∈ listed := by
  induction n generalizing listed queue with
  | zero =>
    obtain rfl : queue = [] := length_eq_zero_iff.mp (by omega)
    cases h
  | succ n ih =>
    cases queue with
    | nil => cases h
    | cons item queue =>
      have hfuel := unlisted_append hg listed item
      rw [length_cons] at hn
      rw [closureFrom_cons] at h ⊢
      have hstart : ∀ q ∈ begun g listed item, Item.start q ∈ closureFrom g n
          (listed ++ (begun g listed item).map Production.number)
          (queue ++ (begun g listed item).map Item.start) := by
        intro q hq
        exact mem_closureFrom_of_mem (mem_append_right _ (mem_map.mpr ⟨q, hq, rfl⟩))
      rcases mem_cons.mp h with rfl | h
      · by_cases hl : p.number ∈ listed
        · exact .inr hl
        · exact .inl (mem_cons_of_mem _ (hstart p (mem_begun.mpr ⟨s, hs, hp, hl⟩)))
      · have hlen : (queue ++ (begun g listed item).map Item.start).length = queue.length +
            (begun g listed item).length := by simp
        rcases ih (by omega) h with h | h
        · exact .inl (mem_cons_of_mem _ h)
        · rcases mem_append.mp h with h | h
          · exact .inr h
          · obtain ⟨q, hq, hnum⟩ := mem_map.mp h
            obtain ⟨_, -, hqs, -⟩ := mem_begun.mp hq
            obtain rfl := hg.eq_of_number (hg.mem_all hqs) (hg.mem_all hp) hnum
            exact .inl (mem_cons_of_mem _ (hstart q hq))

section Closure

variable {kernel : List (Item S)} {i : Item S}

lemma mem_closure_of_mem (h : i ∈ kernel) : i ∈ closure g kernel :=
  mem_closureFrom_of_mem h

lemma origin_closure (h : i ∈ closure g kernel) :
    i ∈ kernel ∨ ∃ j ∈ closure g kernel, ∃ s, j.next? = some s ∧ ∃ p ∈ g.productionsOf s, i = Item.start p :=
  origin_closureFrom h

lemma start_mem_closure (hg : g.Numbered) {s : S} {p : Production S} (h : i ∈ closure g kernel)
    (hs : i.next? = some s) (hp : p ∈ g.productionsOf s) : Item.start p ∈ closure g kernel := by
  have hfuel : kernel.length + unlisted g [] ≤ kernel.length + g.size := by
    have := length_filter_le (fun n => !([] : List Nat).contains n) (g.productions.map Production.number)
    rw [length_map] at this
    unfold unlisted Grammar.size
    omega
  rcases closed_closureFrom hg hfuel h hs hp with h | h
  · exact h
  · cases h

end Closure

def Belongs (g : Grammar S) (i : Item S) : Prop :=
  ∃ p ∈ g.all, ∃ d ≤ p.symbols.length, i = p.dotted d

section Belongs

variable {i j : Item S}

omit [DecidableEq S] in
lemma belongs_start {p : Production S} (h : p ∈ g.all) : Belongs g (Item.start p) :=
  ⟨p, h, 0, Nat.zero_le _, rfl⟩

omit [DecidableEq S] in
lemma Belongs.advance (h : Belongs g i) {s : S} (hs : i.next? = some s) : Belongs g i.advance := by
  obtain ⟨p, hp, d, -, rfl⟩ := h
  exact ⟨p, hp, d + 1, (List.getElem?_eq_some_iff.mp hs).1, rfl⟩

lemma belongs_closure (hg : g.Numbered) {kernel : List (Item S)} (h : ∀ i ∈ kernel, Belongs g i)
    (hi : i ∈ closure g kernel) : Belongs g i := by
  rcases origin_closure hi with hi | ⟨_, -, _, -, p, hp, rfl⟩
  · exact h i hi
  · exact belongs_start (hg.mem_all hp)

lemma belongs_moved {items : List (Item S)} (h : ∀ i ∈ items, Belongs g i) {s : S} (hi : i ∈ moved items s) :
    Belongs g i := by
  obtain ⟨j, hj, rfl⟩ := mem_map.mp hi
  obtain ⟨hj, hs⟩ := mem_filter.mp hj
  exact (h j hj).advance (of_decide_eq_true hs)

lemma Belongs.eq_of_same (hg : g.Numbered) (hi : Belongs g i) (hj : Belongs g j) (h : i.same j = true) : i = j := by
  obtain ⟨p, hp, d, -, rfl⟩ := hi
  obtain ⟨q, hq, e, -, rfl⟩ := hj
  obtain ⟨hnum, rfl⟩ : p.number = q.number ∧ d = e := by
    simpa only [Item.same, Production.dotted, Bool.and_eq_true, beq_iff_eq] using h
  rw [hg.eq_of_number hp hq hnum]

lemma eq_of_sameKernel (hg : g.Numbered) {is js : List (Item S)} (hi : ∀ i ∈ is, Belongs g i)
    (hj : ∀ j ∈ js, Belongs g j) (h : sameKernel is js = true) : is = js := by
  induction is generalizing js with
  | nil =>
    cases js with
    | nil => rfl
    | cons j js => cases h
  | cons i is ih =>
    cases js with
    | nil => cases h
    | cons j js =>
      rw [sameKernel, Bool.and_eq_true] at h
      rw [(hi i mem_cons_self).eq_of_same hg (hj j mem_cons_self) h.1,
        ih (fun x hx => hi x (mem_cons_of_mem _ hx)) (fun x hx => hj x (mem_cons_of_mem _ hx)) h.2]

end Belongs

def Formed (g : Grammar S) (st : ItemSet S) : Prop :=
  st.items = closure g st.kernel ∧ ∀ i ∈ st.kernel, Belongs g i

lemma Formed.belongs (hg : g.Numbered) {st : ItemSet S} (h : Formed g st) {i : Item S} (hi : i ∈ st.items) :
    Belongs g i := by
  rw [h.1] at hi
  exact belongs_closure hg h.2 hi

structure Stepped (g : Grammar S) (items : List (Item S)) (before : List (ItemSet S)) (ss : List S)
    (found : List (ItemSet S) × List (S × Nat)) : Prop where
  grown : before <+: found.1
  formed : ∀ st ∈ found.1, Formed g st
  leads : ∀ e ∈ found.2, ∃ st, found.1[e.2]? = some st ∧ st.kernel = moved items e.1 ∧ st.kernel ≠ []
  moves : ∀ s ∈ ss, moved items s ≠ [] → s ∈ found.2.map Prod.fst
  reached : ∀ r, before.length ≤ r → r < found.1.length → ∃ s, (s, r) ∈ found.2
  keys : (found.2.map Prod.fst).Sublist ss

lemma Stepped.addStep (hg : g.Numbered) {ss : List S} (hi : ∀ i ∈ items, Belongs g i)
    (h : Stepped g items before ss found) (s : S) : Stepped g items before (ss ++ [s]) (addStep g items found s) := by
  have hk : ∀ i ∈ moved items s, Belongs g i := fun i hm => belongs_moved hi hm
  unfold Collection.addStep
  split
  · rename_i hm
    refine ⟨h.grown, h.formed, h.leads, ?_, h.reached, h.keys.trans (sublist_append_left _ _)⟩
    intro s' hs' hne
    rcases mem_append.mp hs' with hs' | hs'
    · exact h.moves s' hs' hne
    · obtain rfl := mem_singleton.mp hs'
      exact absurd hm hne
  · rename_i hm
    have hmoves : ∀ r, ∀ s' ∈ ss ++ [s], moved items s' ≠ [] → s' ∈ (found.2 ++ [(s, r)]).map Prod.fst := by
      intro r s' hs' hne
      rw [map_append, mem_append]
      rcases mem_append.mp hs' with hs' | hs'
      · exact .inl (h.moves s' hs' hne)
      · exact .inr hs'
    have hkeys : ∀ r, ((found.2 ++ [(s, r)]).map Prod.fst).Sublist (ss ++ [s]) := by
      intro r
      rw [map_append]
      exact h.keys.append (List.Sublist.refl _)
    split
    · rename_i target hf
      obtain ⟨ht, hsame, -⟩ := findIdx?_eq_some_iff_getElem.mp hf
      have heq := eq_of_sameKernel hg (h.formed _ (getElem_mem ht)).2 hk hsame
      refine ⟨h.grown, h.formed, ?_, hmoves target, ?_, hkeys target⟩
      · intro e he
        rcases mem_append.mp he with he | he
        · exact h.leads e he
        · obtain rfl := mem_singleton.mp he
          exact ⟨_, getElem?_eq_getElem ht, heq, by rw [heq]; exact hm⟩
      · intro r hr hr'
        obtain ⟨s', hs'⟩ := h.reached r hr hr'
        exact ⟨s', mem_append_left _ hs'⟩
    · refine ⟨h.grown.trans (prefix_append _ _), ?_, ?_, hmoves _, ?_, hkeys _⟩
      · intro st hst
        rcases mem_append.mp hst with hst | hst
        · exact h.formed st hst
        · obtain rfl := mem_singleton.mp hst
          exact ⟨rfl, hk⟩
      · intro e he
        rcases mem_append.mp he with he | he
        · obtain ⟨st, hst, hkernel⟩ := h.leads e he
          refine ⟨st, ?_, hkernel⟩
          rw [getElem?_append_left (List.getElem?_eq_some_iff.mp hst).1, hst]
        · obtain rfl := mem_singleton.mp he
          exact ⟨_, getElem?_concat_length, rfl, hm⟩
      · intro r hr hr'
        by_cases hlt : r < found.1.length
        · obtain ⟨s', hs'⟩ := h.reached r hr hlt
          exact ⟨s', mem_append_left _ hs'⟩
        · rw [length_append, length_singleton] at hr'
          obtain rfl : r = found.1.length := by omega
          exact ⟨s, mem_append_right _ (mem_singleton.mpr rfl)⟩

lemma Stepped.foldl (hg : g.Numbered) (hi : ∀ i ∈ items, Belongs g i) (ss : List S) {treated : List S}
    (h : Stepped g items before treated found) :
    Stepped g items before (treated ++ ss) (ss.foldl (Collection.addStep g items) found) := by
  induction ss generalizing treated found with
  | nil => rwa [append_nil]
  | cons s ss ih =>
    have := ih (h.addStep hg hi s)
    rwa [append_assoc] at this

structure Exploring (g : Grammar S) (p : Production S) (c : Collection S) : Prop where
  first : ∃ st, c.states[0]? = some st ∧ st.kernel = [Item.start p]
  formed : ∀ st ∈ c.states, Formed g st
  bound : c.steps.length ≤ c.states.length
  leads : ∀ {q s r}, c.goto? q s = some r →
    ∃ st, c.states[r]? = some st ∧ st.kernel = moved (c.itemsOf q) s ∧ st.kernel ≠ []
  moves : ∀ {q s i}, q < c.steps.length → i ∈ c.itemsOf q → i.next? = some s → ∃ r, c.goto? q s = some r
  reached : ∀ r, 0 < r → r < c.states.length → ∃ q < r, ∃ s, c.goto? q s = some r

lemma next?_mem_symbolsOf {i : Item S} {s : S} (h : i ∈ items) (hs : i.next? = some s) : s ∈ symbolsOf items := by
  rw [symbolsOf, mem_distinct, mem_flatMap]
  exact ⟨i, h, mem_distinct.mpr (mem_of_getElem? hs)⟩

lemma advance_mem_moved {i : Item S} {s : S} (h : i ∈ items) (hs : i.next? = some s) : i.advance ∈ moved items s :=
  mem_map.mpr ⟨i, mem_filter.mpr ⟨h, decide_eq_true hs⟩, rfl⟩

section Explore

variable {p : Production S} {c : Collection S} {st : ItemSet S}

omit [DecidableEq S] in
lemma itemsOf_eq {q : Nat} (h : c.states[q]? = some st) : c.itemsOf q = st.items := by
  simp only [itemsOf, h]

lemma lt_of_goto? {q r : Nat} {s : S} (h : c.goto? q s = some r) : q < c.steps.length := by
  by_contra hq
  rw [goto?, stepsOf, getElem?_eq_none (by omega)] at h
  cases h

lemma exploring_initial (hp : p ∈ g.all) : Exploring g p (initial g p) where
  first := ⟨_, rfl, rfl⟩
  formed := by
    intro st hst
    obtain rfl := mem_singleton.mp hst
    refine ⟨rfl, ?_⟩
    intro i hi
    obtain rfl := mem_singleton.mp hi
    exact belongs_start hp
  bound := Nat.zero_le _
  leads h := absurd (lt_of_goto? h) (Nat.not_lt_zero _)
  moves h := absurd h (Nat.not_lt_zero _)
  reached := by
    intro r h0 h1
    have : r < 1 := h1
    omega

lemma Exploring.step (h : Exploring g p c) (hst : c.states[c.steps.length]? = some st)
    {found : List (ItemSet S) × List (S × Nat)} (hf : Stepped g st.items c.states (symbolsOf st.items) found) :
    Exploring g p ⟨found.1, c.steps ++ [found.2]⟩ := by
  obtain ⟨more, hmore⟩ := hf.grown
  have hlt : c.steps.length < c.states.length := (List.getElem?_eq_some_iff.mp hst).1
  have hstate : ∀ {r : Nat} {st : ItemSet S}, c.states[r]? = some st → found.1[r]? = some st := by
    intro r st hr
    rw [← hmore, getElem?_append_left (List.getElem?_eq_some_iff.mp hr).1, hr]
  have hitems : ∀ q < c.states.length, itemsOf ⟨found.1, c.steps ++ [found.2]⟩ q = c.itemsOf q := by
    intro q hq
    have hget := getElem?_eq_getElem hq
    rw [itemsOf_eq hget]
    exact itemsOf_eq (hstate hget)
  have hold : ∀ q < c.steps.length, ∀ s, goto? ⟨found.1, c.steps ++ [found.2]⟩ q s = c.goto? q s := by
    intro q hq s
    simp only [goto?, stepsOf, getElem?_append_left hq]
  have hnew : ∀ s, goto? ⟨found.1, c.steps ++ [found.2]⟩ c.steps.length s = found.2.lookup s := by
    intro s
    simp only [goto?, stepsOf, getElem?_concat_length, Option.getD_some]
  have hlast : itemsOf ⟨found.1, c.steps ++ [found.2]⟩ c.steps.length = st.items := by
    rw [hitems _ hlt, itemsOf_eq hst]
  have hnodup : (found.2.map Prod.fst).Nodup := hf.keys.nodup (nodup_foldl_distinct _ nodup_nil)
  have hlen : (c.steps ++ [found.2]).length = c.steps.length + 1 := by simp
  refine ⟨?_, hf.formed, ?_, ?_, ?_, ?_⟩
  · obtain ⟨st, h0, hk⟩ := h.first
    exact ⟨st, hstate h0, hk⟩
  · have := hf.grown.length_le
    rw [hlen]
    exact Nat.lt_of_lt_of_le hlt this
  · intro q s r hr
    have hq := lt_of_goto? hr
    rw [hlen] at hq
    rcases Nat.lt_succ_iff_lt_or_eq.mp hq with hq | rfl
    · rw [hold q hq] at hr
      obtain ⟨st', hst', hk⟩ := h.leads hr
      rw [hitems q (by omega)]
      exact ⟨st', hstate hst', hk⟩
    · rw [hnew] at hr
      rw [hlast]
      exact hf.leads _ (mem_of_lookup hr)
  · intro q s i hq hi hs
    rw [hlen] at hq
    rcases Nat.lt_succ_iff_lt_or_eq.mp hq with hq | rfl
    · rw [hitems q (by omega)] at hi
      rw [hold q hq]
      exact h.moves hq hi hs
    · rw [hlast] at hi
      obtain ⟨⟨k, r⟩, he, rfl⟩ := mem_map.mp (hf.moves s (next?_mem_symbolsOf hi hs)
        (ne_nil_of_mem (advance_mem_moved hi hs)))
      exact ⟨r, by rw [hnew]; exact lookup_of_mem hnodup he⟩
  · intro r h0 hr
    by_cases hlt' : r < c.states.length
    · obtain ⟨q, hqr, s, hq⟩ := h.reached r h0 hlt'
      exact ⟨q, hqr, s, by rw [hold q (lt_of_goto? hq), hq]⟩
    · obtain ⟨s, hs⟩ := hf.reached r (by omega) hr
      exact ⟨c.steps.length, by omega, s, by rw [hnew]; exact lookup_of_mem hnodup hs⟩

lemma Exploring.exploreFrom (hg : g.Numbered) (n : Nat) (h : Exploring g p c) : Exploring g p (exploreFrom g n c) := by
  induction n generalizing c with
  | zero => exact h
  | succ n ih =>
    rw [Collection.exploreFrom]
    split
    · exact h
    · rename_i st hst
      have hform := h.formed st (mem_of_getElem? hst)
      have hstart : Stepped g st.items c.states [] (c.states, []) :=
        ⟨prefix_refl _, h.formed, by simp, by simp, fun r hr hr' => absurd hr' (Nat.not_lt.mpr hr), List.Sublist.refl _⟩
      exact ih (h.step hst (hstart.foldl hg (fun i hi => hform.belongs hg hi) _))

lemma exploring_build (hg : g.Numbered) (hp : g.augmented = some p) : Exploring g p (build g p) := by
  refine Exploring.exploreFrom hg _ (exploring_initial ?_)
  rw [Grammar.all, hp]
  exact mem_cons_self

structure Explored (g : Grammar S) (p : Production S) (c : Collection S) : Prop extends Exploring g p c where
  numbered : g.Numbered
  all : c.steps.length = c.states.length

namespace Explored

variable (h : Explored g p c) {q r : Nat} {s : S} {pr begun : Production S} {d : Nat} {i : Item S}

include h

lemma state_of_mem (hi : i ∈ c.itemsOf q) : ∃ st, c.states[q]? = some st ∧ i ∈ st.items ∧ Formed g st := by
  unfold itemsOf at hi
  split at hi
  · cases hi
  · rename_i st hst
    exact ⟨st, hst, hi, h.formed st (mem_of_getElem? hst)⟩

lemma belongs (hi : i ∈ c.itemsOf q) : Belongs g i := by
  obtain ⟨st, -, hi, hst⟩ := h.state_of_mem hi
  exact hst.belongs h.numbered hi

lemma start_mem : p.dotted 0 ∈ c.itemsOf 0 := by
  obtain ⟨st, hst, hk⟩ := h.first
  rw [itemsOf_eq hst, (h.formed st (mem_of_getElem? hst)).1, hk]
  exact mem_closure_of_mem (mem_singleton.mpr rfl)

lemma exists_goto? (hi : pr.dotted d ∈ c.itemsOf q) (hs : pr.symbols[d]? = some s) : ∃ r, c.goto? q s = some r := by
  obtain ⟨st, hst, -, -⟩ := h.state_of_mem hi
  refine h.moves ?_ hi hs
  rw [h.all]
  exact (List.getElem?_eq_some_iff.mp hst).1

lemma dotted_zero_mem (hi : pr.dotted d ∈ c.itemsOf q) (hs : pr.symbols[d]? = some s)
    (hp : begun ∈ g.productionsOf s) : begun.dotted 0 ∈ c.itemsOf q := by
  obtain ⟨st, hst, hi, hform⟩ := h.state_of_mem hi
  rw [itemsOf_eq hst]
  rw [hform.1] at hi ⊢
  exact start_mem_closure h.numbered hi hs hp

lemma dotted_succ_mem (hi : pr.dotted d ∈ c.itemsOf q) (hs : pr.symbols[d]? = some s) (hr : c.goto? q s = some r) :
    pr.dotted (d + 1) ∈ c.itemsOf r := by
  obtain ⟨st, hst, hk, -⟩ := h.leads hr
  rw [itemsOf_eq hst, (h.formed st (mem_of_getElem? hst)).1, hk]
  exact mem_closure_of_mem (advance_mem_moved hi hs)

section

variable (hr : c.goto? q s = some r)

include hr

lemma retreat (hi : pr.dotted (d + 1) ∈ c.itemsOf r) :
    pr.dotted d ∈ c.itemsOf q ∧ pr.symbols[d]? = some s := by
  obtain ⟨st, hst, hk, -⟩ := h.leads hr
  rw [itemsOf_eq hst, (h.formed st (mem_of_getElem? hst)).1] at hi
  rcases origin_closure hi with hi | ⟨_, -, _, -, _, -, hi⟩
  · rw [hk] at hi
    obtain ⟨j, hj, hadv⟩ := mem_map.mp hi
    obtain ⟨hj, hs⟩ := mem_filter.mp hj
    obtain ⟨number, name, symbols, dot⟩ := j
    simp only [Item.advance, Production.dotted, Item.mk.injEq, Nat.add_right_cancel_iff] at hadv
    obtain ⟨rfl, rfl, rfl, rfl⟩ := hadv
    exact ⟨hj, of_decide_eq_true hs⟩
  · exact absurd (congrArg Item.dot hi) (Nat.succ_ne_zero _)

lemma exists_expected : ∃ i ∈ c.itemsOf q, i.next? = some s := by
  obtain ⟨st, -, hk, hne⟩ := h.leads hr
  rw [hk] at hne
  obtain ⟨i, hi⟩ := exists_mem_of_ne_nil _ hne
  obtain ⟨j, hj, rfl⟩ := mem_map.mp hi
  obtain ⟨hj, hs⟩ := mem_filter.mp hj
  exact ⟨j, hj, of_decide_eq_true hs⟩

lemma last?_of_goto? {st : ItemSet S} (hst : c.states[r]? = some st)
    (hi : i ∈ st.kernel) : i.last? = some s := by
  obtain ⟨st', hst', hk, -⟩ := h.leads hr
  rw [hst] at hst'
  obtain rfl := Option.some.inj hst'
  rw [hk] at hi
  obtain ⟨j, hj, rfl⟩ := mem_map.mp hi
  exact Item.last?_advance (of_decide_eq_true (mem_filter.mp hj).2)

lemma exists_kernel : ∃ st i, c.states[r]? = some st ∧ i ∈ st.kernel ∧ i.last? = some s := by
  obtain ⟨st, hst, -, hne⟩ := h.leads hr
  obtain ⟨i, hi⟩ := exists_mem_of_ne_nil _ hne
  exact ⟨st, i, hst, hi, h.last?_of_goto? hr hst hi⟩

end

lemma dotted_succ_not_mem : pr.dotted (d + 1) ∉ c.itemsOf 0 := by
  intro hi
  obtain ⟨st, hst, hk⟩ := h.first
  rw [itemsOf_eq hst, (h.formed st (mem_of_getElem? hst)).1] at hi
  rcases origin_closure hi with hi | ⟨_, -, _, -, _, -, hi⟩
  · rw [hk] at hi
    exact absurd (congrArg Item.dot (mem_singleton.mp hi)) (Nat.succ_ne_zero _)
  · exact absurd (congrArg Item.dot hi) (Nat.succ_ne_zero _)

lemma goto?_ne_zero : c.goto? q s ≠ some 0 := by
  intro hr
  obtain ⟨st, hst, hk, hne⟩ := h.leads hr
  obtain ⟨st', hst', hk'⟩ := h.first
  rw [hst] at hst'
  obtain rfl := Option.some.inj hst'
  have hmem : Item.start p ∈ moved (c.itemsOf q) s := by
    rw [← hk, hk']
    exact mem_singleton.mpr rfl
  obtain ⟨j, -, hj⟩ := mem_map.mp hmem
  exact absurd (congrArg Item.dot hj) (Nat.succ_ne_zero _)

lemma origin (hi : pr.dotted 0 ∈ c.itemsOf q) :
    q = 0 ∧ pr.dotted 0 = p.dotted 0 ∨ ∃ j ∈ c.itemsOf q, j.next? = some pr.name := by
  obtain ⟨st, hst, hmem, hform⟩ := h.state_of_mem hi
  rw [hform.1] at hmem
  rcases origin_closure hmem with hmem | ⟨j, hj, s, hs, begun, hbegun, heq⟩
  · left
    rcases Nat.eq_zero_or_pos q with rfl | hq
    · obtain ⟨st', hst', hk⟩ := h.first
      rw [hst] at hst'
      obtain rfl := Option.some.inj hst'
      rw [hk] at hmem
      exact ⟨rfl, mem_singleton.mp hmem⟩
    · obtain ⟨q', -, s, hgoto⟩ := h.reached q hq (List.getElem?_eq_some_iff.mp hst).1
      obtain ⟨st', hst', hk, -⟩ := h.leads hgoto
      rw [hst] at hst'
      obtain rfl := Option.some.inj hst'
      rw [hk] at hmem
      obtain ⟨j, -, hj⟩ := mem_map.mp hmem
      exact absurd (congrArg Item.dot hj) (Nat.succ_ne_zero _)
  · right
    refine ⟨j, ?_, ?_⟩
    · rw [itemsOf_eq hst, hform.1]
      exact hj
    · have hname : pr.name = begun.name := congrArg Item.name heq
      rw [hs, hname, h.numbered.name hbegun]

end Explored

def reach? (c : Collection S) (q : Nat) (ss : List S) : Option Nat :=
  ss.foldlM c.goto? q

@[simp] lemma reach?_nil (c : Collection S) (q : Nat) : c.reach? q [] = some q := rfl

lemma reach?_cons (c : Collection S) (q : Nat) (s : S) (ss : List S) :
    c.reach? q (s :: ss) = (c.goto? q s).bind (c.reach? · ss) := rfl

lemma reach?_append (c : Collection S) (q : Nat) (ss ts : List S) :
    c.reach? q (ss ++ ts) = (c.reach? q ss).bind (c.reach? · ts) :=
  foldlM_append

lemma reach?_concat {q r t : Nat} {s : S} {ss : List S} (h : c.reach? q ss = some r) (ht : c.goto? r s = some t) :
    c.reach? q (ss ++ [s]) = some t := by
  rw [reach?_append, h, Option.bind_some, reach?_cons, ht]
  rfl

namespace Explored

variable (h : Explored g p c) {q r : Nat} {s : S} {pr : Production S} {d : Nat}

include h

lemma exists_reach? (hr : r < c.states.length) : ∃ ss, c.reach? 0 ss = some r := by
  induction r using Nat.strongRecOn with
  | _ r ih =>
    rcases Nat.eq_zero_or_pos r with rfl | hpos
    · exact ⟨[], rfl⟩
    · obtain ⟨q, hq, s, hgoto⟩ := h.reached r hpos hr
      obtain ⟨ss, hss⟩ := ih q hq (Nat.lt_trans hq hr)
      exact ⟨ss ++ [s], reach?_concat hss hgoto⟩

lemma dotted_add_mem {ss rest : List S} (hi : pr.dotted d ∈ c.itemsOf q) (hs : pr.symbols.drop d = ss ++ rest) :
    ∃ r, c.reach? q ss = some r ∧ pr.dotted (d + ss.length) ∈ c.itemsOf r := by
  induction ss generalizing d q with
  | nil => exact ⟨q, rfl, hi⟩
  | cons s ss ih =>
    have hget : pr.symbols[d]? = some s := by
      rw [← head?_drop, hs]
      rfl
    obtain ⟨r, hr⟩ := h.exists_goto? hi hget
    have hdrop : pr.symbols.drop (d + 1) = ss ++ rest := by
      rw [← tail_drop, hs]
      rfl
    obtain ⟨r', hr', hmem⟩ := ih (h.dotted_succ_mem hi hget hr) hdrop
    refine ⟨r', ?_, ?_⟩
    · rw [reach?_cons, hr]
      exact hr'
    · rwa [length_cons, Nat.add_comm ss.length, ← Nat.add_assoc]

lemma dotted_length_mem (hi : pr.dotted 0 ∈ c.itemsOf q) (hr : c.reach? q pr.symbols = some r) :
    pr.dotted pr.symbols.length ∈ c.itemsOf r := by
  have hdrop : pr.symbols.drop 0 = pr.symbols ++ [] := by rw [drop_zero, append_nil]
  obtain ⟨r', hr', hmem⟩ := h.dotted_add_mem hi hdrop
  rw [hr] at hr'
  obtain rfl := Option.some.inj hr'
  rwa [Nat.zero_add] at hmem

lemma begin_of_mem (hi : pr.dotted d ∈ c.itemsOf r) :
    ∃ q, c.reach? q (pr.symbols.take d) = some r ∧ pr.dotted 0 ∈ c.itemsOf q := by
  induction d generalizing r with
  | zero => exact ⟨r, rfl, hi⟩
  | succ d ih =>
    have hr : 0 < r := by
      rcases Nat.eq_zero_or_pos r with rfl | hr
      · exact absurd hi h.dotted_succ_not_mem
      · exact hr
    obtain ⟨st, hst, -, -⟩ := h.state_of_mem hi
    obtain ⟨q', -, s, hgoto⟩ := h.reached r hr (List.getElem?_eq_some_iff.mp hst).1
    obtain ⟨hmem, hs⟩ := h.retreat hgoto hi
    obtain ⟨q, hq, h0⟩ := ih hmem
    refine ⟨q, ?_, h0⟩
    rw [take_add_one, hs, Option.toList_some]
    exact reach?_concat hq hgoto

end Explored

inductive Entered (c : Collection S) : List Nat → List S → Prop
  | start : Entered c [0] []
  | push {q r : Nat} {qs : List Nat} {s : S} {ss : List S} :
      Entered c (q :: qs) ss → c.goto? q s = some r → Entered c (r :: q :: qs) (s :: ss)

namespace Entered

variable {qs : List Nat} {ss : List S}

lemma length_eq (h : Entered c qs ss) : qs.length = ss.length + 1 := by
  induction h with
  | start => rfl
  | push _ _ ih => simp [ih]

lemma exists_cons (h : Entered c qs ss) : ∃ q rest, qs = q :: rest := by
  cases h with
  | start => exact ⟨_, _, rfl⟩
  | push _ _ => exact ⟨_, _, rfl⟩

lemma eq_start (h : Entered c qs []) : qs = [0] := by
  cases h with
  | start => rfl

lemma exists_push {s : S} (h : Entered c qs (s :: ss)) :
    ∃ r q rest, qs = r :: q :: rest ∧ Entered c (q :: rest) ss ∧ c.goto? q s = some r := by
  cases h with
  | push h hgoto => exact ⟨_, _, _, rfl, h, hgoto⟩

lemma retreat (hc : Explored g p c) {q : Nat} (h : Entered c (q :: qs) ss) {pr : Production S} {d : Nat}
    (hi : pr.dotted d ∈ c.itemsOf q) : ∃ q' qs', (q :: qs).drop d = q' :: qs' ∧ Entered c (q' :: qs') (ss.drop d) ∧
      ss.take d = (pr.symbols.take d).reverse ∧ pr.dotted 0 ∈ c.itemsOf q' := by
  induction d generalizing q qs ss with
  | zero => exact ⟨q, qs, rfl, h, rfl, hi⟩
  | succ d ih =>
    cases h with
    | start => exact absurd hi hc.dotted_succ_not_mem
    | push h hgoto =>
      obtain ⟨hmem, hs⟩ := hc.retreat hgoto hi
      obtain ⟨q', qs', hdrop, hent, htake, h0⟩ := ih h hmem
      refine ⟨q', qs', hdrop, hent, ?_, h0⟩
      rw [take_succ_cons, htake, take_add_one, hs, Option.toList_some, reverse_append]
      rfl

end Entered

end Explore

end Collection

end LispKit
