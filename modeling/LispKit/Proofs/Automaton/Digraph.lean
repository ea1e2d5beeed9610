import LispKit.Automaton.Digraph
import LispKit.Proofs.Grammar.Numbered
import Mathlib.Logic.Relation

/-! Sets along a relation: a solved node holds what was given for every node that it reaches.

The nodes on the stack are the active ones. An active node's mark says how low on the stack its successors
lie, so that a node whose mark is its own depth reaches nothing below it. -/

set_option linter.unusedSectionVars false

namespace LispKit.Digraph

open List Registry

variable {ν α : Type}

namespace State

def cell (s : State ν α) (k : Nat) : List α :=
  s.cells[k]?.getD []

variable [BEq ν]

def height (s : State ν α) (x : ν) : Nat :=
  s.stack.reverse.idxOf x

def setMark (s : State ν α) (x : ν) (m : Mark) : State ν α :=
  { s with marks := s.marks.insert x m }

section

variable [LawfulBEq ν] (s : State ν α) {x z : ν} (m : Mark)

@[simp] lemma mark_setMark_self : (s.setMark x m).mark x = m := by
  simp only [mark, setMark, Registry.getD, get?_insert_self, Option.getD_some]

lemma mark_setMark_of_ne (h : z ≠ x) : (s.setMark x m).mark z = s.mark z := by
  have hne : (x == z) = false := beq_eq_false_iff_ne.mpr (Ne.symm h)
  simp only [mark, setMark, Registry.getD, get?_insert_of_ne _ _ hne]

end

section

variable [BEq α] (s : State ν α) (x y : ν)

@[simp] lemma absorb_marks : (s.absorb x y).marks = s.marks := by
  unfold absorb
  split <;> rfl

@[simp] lemma absorb_stack : (s.absorb x y).stack = s.stack := by
  unfold absorb
  split <;> rfl

@[simp] lemma absorb_owner : (s.absorb x y).owner = s.owner := by
  unfold absorb
  split <;> rfl

@[simp] lemma length_cells_absorb : (s.absorb x y).cells.length = s.cells.length := by
  unfold absorb
  split
  · exact length_set
  · rfl

variable [LawfulBEq α] {s x y}

lemma mem_cell_absorb {k l : Nat} (hx : s.owner.get? x = some k) (hy : s.owner.get? y = some l)
    (hk : k < s.cells.length) (j : Nat) (a : α) : a ∈ (s.absorb x y).cell j ↔ a ∈ s.cell j ∨ j = k ∧ a ∈ s.cell l := by
  simp only [absorb, hx, hy, cell]
  by_cases hj : k = j
  · subst hj
    rw [getElem?_set_self hk, Option.getD_some, mem_foldl_distinct]
    simp
  · rw [getElem?_set_ne hj]
    simp [Ne.symm hj]

end

lemma height_of_suffix {s t : State ν α} {x : ν} [LawfulBEq ν] (h : s.stack <:+ t.stack) (hx : x ∈ s.stack) :
    t.height x = s.height x := by
  obtain ⟨above, habove⟩ := h
  rw [height, height, ← habove, reverse_append]
  exact idxOf_append_of_mem (mem_reverse.mpr hx)

lemma height_lt {s : State ν α} {x : ν} [LawfulBEq ν] (hx : x ∈ s.stack) : s.height x < s.stack.length := by
  have := idxOf_lt_length_of_mem (mem_reverse.mpr hx)
  rwa [length_reverse] at this

end State

variable [BEq ν] [LawfulBEq ν] [BEq α] [LawfulBEq α] {next : ν → List ν} {given : ν → Nat} {base : List (List α)}

def Owed (next : ν → List ν) (given : ν → Nat) (base : List (List α)) (x : ν) (a : α) : Prop :=
  ∃ y, Relation.ReflTransGen (fun u v => v ∈ next u) x y ∧ a ∈ base[given y]?.getD []

structure Invariant (next : ν → List ν) (given : ν → Nat) (base : List (List α)) (s : State ν α) : Prop where
  length : s.cells.length = base.length
  grown : ∀ k, ∀ a ∈ base[k]?.getD [], a ∈ s.cell k
  nodup : s.stack.Nodup
  stacked : ∀ z, z ∈ s.stack ↔ ∃ d, s.mark z = .active d
  low : ∀ {z d}, s.mark z = .active d → 1 ≤ d ∧ d ≤ s.height z + 1
  owns : ∀ {z d}, s.mark z = .active d → s.owner.get? z = some (given z)
  closed : ∀ {z}, s.mark z = .closed →
    ∃ k, k < base.length ∧ s.owner.get? z = some k ∧ ∀ a, Owed next given base z a → a ∈ s.cell k

structure Grows (s t : State ν α) : Prop where
  cells : ∀ k, ∀ a ∈ s.cell k, a ∈ t.cell k
  stack : s.stack <:+ t.stack
  closed : ∀ {z}, s.mark z = .closed → t.mark z = .closed

lemma Grows.trans {s t u : State ν α} (h : Grows s t) (h' : Grows t u) : Grows s u :=
  ⟨fun k a ha => h'.cells k a (h.cells k a ha), h.stack.trans h'.stack, fun hz => h'.closed (h.closed hz)⟩

def Covers (next : ν → List ν) (given : ν → Nat) (base : List (List α)) (s : State ν α) (x : ν) (d : Nat) (w : ν) :
    Prop :=
  s.mark w = .closed ∧ (∀ a, Owed next given base w a → a ∈ s.cell (given x)) ∨ w ∈ s.stack ∧ d ≤ s.height w + 1

def Settled (next : ν → List ν) (given : ν → Nat) (base : List (List α)) (s : State ν α) (x : ν) (d : Nat) (z : ν) :
    Prop :=
  ∃ e, s.mark z = .active e ∧ d ≤ e ∧ (∀ a ∈ base[given z]?.getD [], a ∈ s.cell (given x)) ∧
    ∀ w ∈ next z, Covers next given base s x e w

section

variable {s t start : State ν α} {x y z w : ν} {d e : Nat}

lemma Covers.mono (h : Covers next given base s x d w) (hg : Grows s t) (hd : e ≤ d) :
    Covers next given base t x e w := by
  rcases h with ⟨hw, ha⟩ | ⟨hw, hle⟩
  · exact .inl ⟨hg.closed hw, fun a ho => hg.cells _ a (ha a ho)⟩
  · refine .inr ⟨hg.stack.subset hw, ?_⟩
    rw [State.height_of_suffix hg.stack hw]
    exact Nat.le_trans hd hle

lemma Settled.mono (h : Settled next given base s x d z) (hg : Grows s t) (hz : t.mark z = s.mark z) (hd : e ≤ d) :
    Settled next given base t x e z := by
  obtain ⟨f, hf, hle, hbase, hnext⟩ := h
  refine ⟨f, hz.trans hf, Nat.le_trans hd hle, fun a ha => hg.cells _ a (hbase a ha), ?_⟩
  intro w hw
  exact (hnext w hw).mono hg (Nat.le_refl f)

lemma Mark.lower_active {m : Mark} (hm : m ≠ .fresh) (d : Nat) :
    ∃ e ≤ d, Mark.lower (.active d) m = .active e ∧ (∀ {f}, m = .active f → e ≤ f) ∧ (e = d ∨ m = .active e) := by
  cases m with
  | fresh => exact absurd rfl hm
  | closed => exact ⟨d, Nat.le_refl d, rfl, fun h => Mark.noConfusion h, .inl rfl⟩
  | active f =>
    refine ⟨min d f, Nat.min_le_left d f, rfl, ?_, ?_⟩
    · intro f' hf
      obtain rfl := Mark.active.inj hf
      exact Nat.min_le_right d f
    · rcases Nat.le_total d f with h | h
      · exact .inl (Nat.min_eq_left h)
      · exact .inr (by rw [Nat.min_eq_right h])

def meet (s : State ν α) (x y : ν) : State ν α :=
  (s.setMark x ((s.mark x).lower (s.mark y))).absorb x y

section Meet

variable (h : Invariant next given base s) (hx : s.mark x = .active d) (hy : s.mark y ≠ .fresh)

lemma mark_meet_of_ne (hz : z ≠ x) : (meet s x y).mark z = s.mark z := by
  rw [State.mark, meet, State.absorb_marks]
  exact State.mark_setMark_of_ne s _ hz

@[simp] lemma meet_stack : (meet s x y).stack = s.stack := by
  rw [meet, State.absorb_stack]
  rfl

@[simp] lemma meet_owner : (meet s x y).owner = s.owner := by
  rw [meet, State.absorb_owner]
  rfl

lemma height_meet (z : ν) : (meet s x y).height z = s.height z := by
  rw [State.height, meet_stack, State.height]

include hx hy in
lemma mark_meet_self : ∃ e ≤ d, (meet s x y).mark x = .active e ∧ (∀ {f}, s.mark y = .active f → e ≤ f) ∧
    (e = d ∨ s.mark y = .active e) := by
  obtain ⟨e, he, hlower, hle, hor⟩ := Mark.lower_active hy d
  refine ⟨e, he, ?_, hle, hor⟩
  rw [State.mark, meet, State.absorb_marks]
  exact (State.mark_setMark_self s _).trans (by rw [hx, hlower])

include h hy in
lemma Invariant.exists_owner (hg : given y < base.length) : ∃ l, l < base.length ∧ s.owner.get? y = some l ∧
      (s.mark y = .closed ∧ (∀ a, Owed next given base y a → a ∈ s.cell l) ∨ l = given y ∧ ∃ e, s.mark y = .active e) := by
  cases hm : s.mark y with
  | fresh => exact absurd hm hy
  | closed =>
    obtain ⟨l, hl, hown, howed⟩ := h.closed hm
    exact ⟨l, hl, hown, .inl ⟨rfl, howed⟩⟩
  | active e => exact ⟨given y, hg, h.owns hm, .inr ⟨rfl, e, rfl⟩⟩

include h hx in
lemma mem_cell_meet (hg : given x < base.length) {l : Nat} (hl : s.owner.get? y = some l) (j : Nat) (a : α) :
    a ∈ (meet s x y).cell j ↔ a ∈ s.cell j ∨ j = given x ∧ a ∈ s.cell l := by
  refine State.mem_cell_absorb (s := s.setMark x _) ?_ ?_ ?_ j a
  · exact h.owns hx
  · exact hl
  · exact Nat.lt_of_lt_of_eq hg h.length.symm

include h hx hy in
lemma Invariant.grows_meet (hg : given x < base.length) (hgy : given y < base.length) : Grows s (meet s x y) := by
  obtain ⟨l, -, hl, -⟩ := h.exists_owner hy hgy
  refine ⟨?_, ?_, ?_⟩
  · intro k a ha
    exact (mem_cell_meet h hx hg hl k a).mpr (.inl ha)
  · simp only [meet_stack, suffix_rfl]
  · intro z hz
    rw [mark_meet_of_ne ?_, hz]
    rintro rfl
    rw [hx] at hz
    cases hz

include h hx hy in
lemma Invariant.meet (hg : given x < base.length) (hgy : given y < base.length) :
    Invariant next given base (meet s x y) := by
  obtain ⟨l, -, hl, -⟩ := h.exists_owner hy hgy
  have hgrow := h.grows_meet hx hy hg hgy
  obtain ⟨e, hed, hmark, -, hor⟩ := mark_meet_self hx hy
  refine ⟨?_, ?_, ?_, ?_, ?_, ?_, ?_⟩
  · rw [Digraph.meet, State.length_cells_absorb]
    exact h.length
  · intro k a ha
    exact hgrow.cells k a (h.grown k a ha)
  · rw [meet_stack]
    exact h.nodup
  · intro z
    rw [meet_stack, h.stacked]
    by_cases hz : z = x
    · subst hz
      exact ⟨fun _ => ⟨e, hmark⟩, fun _ => ⟨d, hx⟩⟩
    · rw [mark_meet_of_ne hz]
  · intro z f hf
    rw [height_meet]
    by_cases hz : z = x
    · subst hz
      rw [hmark] at hf
      obtain rfl := Mark.active.inj hf
      refine ⟨?_, Nat.le_trans hed (h.low hx).2⟩
      rcases hor with rfl | hy
      · exact (h.low hx).1
      · exact (h.low hy).1
    · rw [mark_meet_of_ne hz] at hf
      exact h.low hf
  · intro z f hf
    rw [meet_owner]
    by_cases hz : z = x
    · subst hz
      exact h.owns hx
    · rw [mark_meet_of_ne hz] at hf
      exact h.owns hf
  · intro z hz
    rw [meet_owner]
    have hne : z ≠ x := by
      rintro rfl
      rw [hmark] at hz
      cases hz
    rw [mark_meet_of_ne hne] at hz
    obtain ⟨k, hk, hown, howed⟩ := h.closed hz
    exact ⟨k, hk, hown, fun a ha => hgrow.cells k a (howed a ha)⟩

end Meet

section Close

variable {seg below : List ν}

lemma close_fields (cell : Nat) (below : List ν) (hx : x ∉ seg) (s : State ν α) :
    (State.close x cell (seg ++ x :: below) s).stack = below ∧
    (State.close x cell (seg ++ x :: below) s).cells = s.cells ∧
    (∀ z ∈ x :: seg, (State.close x cell (seg ++ x :: below) s).mark z = .closed ∧
      (State.close x cell (seg ++ x :: below) s).owner.get? z = some cell) ∧
    ∀ z ∉ x :: seg, (State.close x cell (seg ++ x :: below) s).mark z = s.mark z ∧
      (State.close x cell (seg ++ x :: below) s).owner.get? z = s.owner.get? z := by
  induction seg generalizing s with
  | nil =>
    rw [nil_append, State.close, if_pos (beq_self_eq_true x)]
    refine ⟨rfl, rfl, ?_, ?_⟩
    · intro z hz
      obtain rfl := mem_singleton.mp hz
      exact ⟨State.mark_setMark_self s _, get?_insert_self _ _ _⟩
    · intro z hz
      have hne : z ≠ x := fun he => hz (mem_singleton.mpr he)
      exact ⟨State.mark_setMark_of_ne s _ hne,
        get?_insert_of_ne _ _ (beq_eq_false_iff_ne.mpr (Ne.symm hne))⟩
  | cons y seg ih =>
    rw [mem_cons, not_or] at hx
    rw [cons_append, State.close, if_neg (by simpa using Ne.symm hx.1)]
    obtain ⟨hstack, hcells, hin, hout⟩ := ih hx.2
      { s with marks := s.marks.insert y .closed, owner := s.owner.insert y cell }
    refine ⟨hstack, hcells, ?_, ?_⟩
    · intro z hz
      by_cases hz' : z ∈ x :: seg
      · exact hin z hz'
      · obtain rfl : z = y := by
          simp only [mem_cons, not_or] at hz hz'
          tauto
        obtain ⟨hm, ho⟩ := hout z hz'
        rw [hm, ho]
        exact ⟨State.mark_setMark_self s _, get?_insert_self _ _ _⟩
    · intro z hz
      simp only [mem_cons, not_or] at hz
      obtain ⟨hm, ho⟩ := hout z (by simp [hz.1, hz.2.2])
      rw [hm, ho]
      exact ⟨State.mark_setMark_of_ne s _ hz.2.1,
        get?_insert_of_ne _ _ (beq_eq_false_iff_ne.mpr (Ne.symm hz.2.1))⟩

lemma owed_of_settled (hstack : s.stack = seg ++ x :: below)
    (hset : ∀ z ∈ x :: seg, Settled next given base s x (below.length + 1) z) {a : α} (hz : z ∈ x :: seg)
    (ha : Owed next given base z a) : a ∈ s.cell (given x) := by
  obtain ⟨y, hreach, ha⟩ := ha
  induction hreach using Relation.ReflTransGen.head_induction_on with
  | refl =>
    obtain ⟨-, -, -, hbase, -⟩ := hset y hz
    exact hbase a ha
  | @head z w hw hreach ih =>
    obtain ⟨e, -, he, -, hnext⟩ := hset z hz
    rcases hnext w hw with ⟨-, howed⟩ | ⟨hmem, hle⟩
    · exact howed a ⟨y, hreach, ha⟩
    · apply ih
      have hbelow : w ∉ below := by
        intro hb
        have hlt : s.height w < below.length := by
          have hsuf : below <:+ s.stack := by
            rw [hstack]
            exact (suffix_cons x below).trans (suffix_append seg _)
          rw [State.height_of_suffix (s := { s with stack := below }) hsuf hb]
          exact State.height_lt (s := { s with stack := below }) hb
        omega
      rw [hstack, mem_append, mem_cons] at hmem
      rw [mem_cons]
      tauto

lemma Invariant.not_mem_above (h : Invariant next given base s) (hstack : s.stack = seg ++ x :: below) :
    x ∉ seg ∧ ∀ z ∈ below, z ∉ x :: seg := by
  have hnodup := h.nodup
  rw [hstack] at hnodup
  refine ⟨fun hmem => disjoint_of_nodup_append hnodup hmem mem_cons_self, fun z hz hmem => ?_⟩
  rcases mem_cons.mp hmem with rfl | hmem
  · exact (nodup_cons.mp hnodup.of_append_right).1 hz
  · exact disjoint_of_nodup_append hnodup hmem (mem_cons_of_mem _ hz)

lemma Invariant.close (h : Invariant next given base s) (hstack : s.stack = seg ++ x :: below)
    (hg : given x < base.length) (hset : ∀ z ∈ x :: seg, Settled next given base s x (below.length + 1) z) :
    Invariant next given base (State.close x (given x) s.stack s) := by
  obtain ⟨hx, hdisj⟩ := h.not_mem_above hstack
  rw [hstack]
  obtain ⟨hst, hcells, hin, hout⟩ := close_fields (given x) below hx s
  set t := State.close x (given x) (seg ++ x :: below) s with ht
  have hcell : ∀ k, t.cell k = s.cell k := by
    intro k
    rw [State.cell, hcells, State.cell]
  have hsuf : t.stack <:+ s.stack := by
    rw [hst, hstack]
    exact (suffix_cons x below).trans (suffix_append seg _)
  have hactive : ∀ {z d}, t.mark z = .active d → z ∉ x :: seg ∧ s.mark z = .active d := by
    intro z d hz
    by_cases hmem : z ∈ x :: seg
    · rw [(hin z hmem).1] at hz
      cases hz
    · exact ⟨hmem, (hout z hmem).1 ▸ hz⟩
  have hstacked : ∀ z, z ∈ t.stack ↔ ∃ d, t.mark z = .active d := by
    intro z
    rw [hst]
    constructor
    · intro hz
      rw [(hout z (hdisj z hz)).1, ← h.stacked, hstack]
      simp [hz]
    · rintro ⟨d, hd⟩
      obtain ⟨hmem, hd⟩ := hactive hd
      have := (h.stacked z).mpr ⟨d, hd⟩
      rw [hstack, mem_append, mem_cons] at this
      rw [mem_cons] at hmem
      tauto
  refine ⟨?_, ?_, ?_, hstacked, ?_, ?_, ?_⟩
  · rw [hcells]
    exact h.length
  · intro k a ha
    rw [hcell]
    exact h.grown k a ha
  · rw [hst]
    have hnodup := h.nodup
    rw [hstack] at hnodup
    exact (nodup_cons.mp hnodup.of_append_right).2
  · intro z d hd
    obtain ⟨-, hd'⟩ := hactive hd
    rw [← State.height_of_suffix hsuf ((hstacked z).mpr ⟨d, hd⟩)]
    exact h.low hd'
  · intro z d hd
    obtain ⟨hmem, hd⟩ := hactive hd
    rw [(hout z hmem).2]
    exact h.owns hd
  · intro z hz
    by_cases hmem : z ∈ x :: seg
    · refine ⟨given x, hg, (hin z hmem).2, ?_⟩
      intro a ha
      rw [hcell]
      exact owed_of_settled hstack hset hmem ha
    · rw [(hout z hmem).1] at hz
      rw [(hout z hmem).2]
      obtain ⟨k, hk, hown, howed⟩ := h.closed hz
      exact ⟨k, hk, hown, fun a ha => by rw [hcell]; exact howed a ha⟩

end Close

lemma Settled.pass (h : Settled next given base s y d z) (hg : Grows s t)
    (hcell : ∀ a ∈ s.cell (given y), a ∈ t.cell (given x)) (hz : t.mark z = s.mark z) (hd : e ≤ d) :
    Settled next given base t x e z := by
  obtain ⟨f, hf, hle, hbase, hnext⟩ := h
  refine ⟨f, hz.trans hf, Nat.le_trans hd hle, fun a ha => hcell a (hbase a ha), ?_⟩
  intro w hw
  rcases hnext w hw with ⟨hw, howed⟩ | hw
  · exact .inl ⟨hg.closed hw, fun a ha => hcell a (howed a ha)⟩
  · exact Covers.mono (.inr hw) hg (Nat.le_refl f)

structure Visited (next : ν → List ν) (given : ν → Nat) (base : List (List α)) (y : ν) (s t : State ν α) : Prop where
  inv : Invariant next given base t
  grows : Grows s t
  marks : ∀ {z}, s.mark z ≠ .fresh → t.mark z = s.mark z
  treated : t.mark y ≠ .fresh
  left : ∃ seg, t.stack = seg ++ s.stack ∧
    ∀ z ∈ seg, ∃ e ≤ s.stack.length, t.mark y = .active e ∧ Settled next given base t y e z

lemma Visited.of_mark (h : Invariant next given base s) (hy : s.mark y ≠ .fresh) : Visited next given base y s s :=
  ⟨h, ⟨fun _ _ ha => ha, suffix_rfl, fun hz => hz⟩, fun _ => rfl, hy, [], rfl, fun _ hz => absurd hz not_mem_nil⟩

lemma Visited.of_fresh (h : Invariant next given base s) (hv : s.mark y = .fresh → Visited next given base y s t) :
    Visited next given base y s (if s.mark y = .fresh then t else s) := by
  split
  · exact hv ‹_›
  · exact .of_mark h ‹_›

structure Treating (next : ν → List ν) (given : ν → Nat) (base : List (List α)) (x : ν) (below : List ν)
    (start : State ν α) (treated : List ν) (s : State ν α) : Prop where
  inv : Invariant next given base s
  grows : Grows start s
  marks : ∀ {z}, z ≠ x → start.mark z ≠ .fresh → s.mark z = start.mark z
  open_ : ∃ seg d, s.stack = seg ++ x :: below ∧ s.mark x = .active d ∧
    (∀ z ∈ seg, Settled next given base s x d z) ∧ ∀ w ∈ treated, Covers next given base s x d w

lemma Treating.visit {below treated : List ν} (h : Treating next given base x below start treated s)
    (hv : Visited next given base y s t) (hg : given x < base.length) (hgy : given y < base.length) :
    Treating next given base x below start (treated ++ [y]) (Digraph.meet t x y) := by
  obtain ⟨seg, d, hstack, hx, hseg, htreated⟩ := h.open_
  obtain ⟨more, hmore, hleft⟩ := hv.left
  have hx' : t.mark x = .active d := by rw [hv.marks (by rw [hx]; exact Mark.noConfusion), hx]
  obtain ⟨e, hed, hmark, hle, -⟩ := mark_meet_self hx' hv.treated
  obtain ⟨l, -, hl, howner⟩ := hv.inv.exists_owner hv.treated hgy
  have hmeet := hv.inv.grows_meet hx' hv.treated hg hgy
  have hgrow := hv.grows.trans hmeet
  have hcell : ∀ a ∈ t.cell l, a ∈ (Digraph.meet t x y).cell (given x) := fun a ha =>
    (mem_cell_meet hv.inv hx' hg hl _ a).mpr (.inr ⟨rfl, ha⟩)
  have hfull : t.stack = (more ++ seg) ++ x :: below := by rw [hmore, hstack, append_assoc]
  have hne : ∀ z ∈ more ++ seg, z ≠ x := by
    rintro z hz rfl
    exact (hv.inv.not_mem_above hfull).1 hz
  refine ⟨hv.inv.meet hx' hv.treated hg hgy, h.grows.trans hgrow, ?_, more ++ seg, e, ?_, hmark, ?_, ?_⟩
  · intro z hz hfresh
    have hsame := h.marks hz hfresh
    rw [mark_meet_of_ne hz, hv.marks (hsame ▸ hfresh), hsame]
  · rw [meet_stack, hfull]
  · intro z hz
    have hzx := hne z hz
    rcases mem_append.mp hz with hz | hz
    · obtain ⟨f, -, hf, hset⟩ := hleft z hz
      have hlg : l = given y := Option.some.inj (hl.symm.trans (hv.inv.owns hf))
      exact hset.pass hmeet (fun a ha => hcell a (hlg ▸ ha)) (mark_meet_of_ne hzx) (hle hf)
    · have hset := hseg z hz
      have hfresh : s.mark z ≠ .fresh := by
        obtain ⟨f, hf, -⟩ := hset
        rw [hf]
        exact Mark.noConfusion
      exact hset.mono hgrow (by rw [mark_meet_of_ne hzx, hv.marks hfresh]) hed
  · intro w hw
    rcases mem_append.mp hw with hw | hw
    · exact (htreated w hw).mono hgrow hed
    · obtain rfl := mem_singleton.mp hw
      rcases howner with ⟨hclosed, howed⟩ | ⟨-, f, hf⟩
      · exact .inl ⟨hmeet.closed hclosed, fun a ha => hcell a (howed a ha)⟩
      · have hmem := (hv.inv.stacked w).mpr ⟨f, hf⟩
        refine .inr ⟨by rw [meet_stack]; exact hmem, ?_⟩
        rw [State.height_of_suffix hmeet.stack hmem]
        exact Nat.le_trans (hle hf) (hv.inv.low hf).2

def enter (given : ν → Nat) (x : ν) (s : State ν α) : State ν α :=
  { s with
    stack := x :: s.stack
    marks := s.marks.insert x (.active (s.stack.length + 1))
    owner := s.owner.insert x (given x) }

section Enter

lemma mark_enter_self : (enter given x s).mark x = .active (s.stack.length + 1) :=
  State.mark_setMark_self s _

lemma mark_enter_of_ne (hz : z ≠ x) : (enter given x s).mark z = s.mark z :=
  State.mark_setMark_of_ne s _ hz

lemma grows_enter (hx : s.mark x = .fresh) : Grows s (enter given x s) where
  cells _ _ ha := ha
  stack := suffix_cons x s.stack
  closed := by
    intro z hz
    rw [mark_enter_of_ne ?_, hz]
    rintro rfl
    rw [hx] at hz
    cases hz

lemma Invariant.enter (h : Invariant next given base s) (hx : s.mark x = .fresh) :
    Invariant next given base (enter given x s) := by
  have hmem : x ∉ s.stack := by
    intro hmem
    obtain ⟨d, hd⟩ := (h.stacked x).mp hmem
    rw [hx] at hd
    cases hd
  have hne : ∀ {z}, z ≠ x → (x == z) = false := fun hz => beq_eq_false_iff_ne.mpr (Ne.symm hz)
  refine ⟨h.length, h.grown, nodup_cons.mpr ⟨hmem, h.nodup⟩, ?_, ?_, ?_, ?_⟩
  · intro z
    by_cases hz : z = x
    · subst hz
      exact ⟨fun _ => ⟨_, mark_enter_self⟩, fun _ => mem_cons_self⟩
    · rw [mark_enter_of_ne hz, ← h.stacked]
      exact ⟨fun hm => (mem_cons.mp hm).resolve_left hz, fun hm => mem_cons_of_mem _ hm⟩
  · intro z d hd
    by_cases hz : z = x
    · subst hz
      rw [mark_enter_self] at hd
      obtain rfl := Mark.active.inj hd
      have : (Digraph.enter given z s).height z = s.stack.length := by
        rw [State.height, Digraph.enter, reverse_cons,
          idxOf_append_of_notMem (by rwa [mem_reverse]), idxOf_cons_self, length_reverse]
        rfl
      omega
    · rw [mark_enter_of_ne hz] at hd
      rw [State.height_of_suffix (grows_enter hx).stack ((h.stacked z).mpr ⟨d, hd⟩)]
      exact h.low hd
  · intro z d hd
    by_cases hz : z = x
    · subst hz
      exact get?_insert_self _ _ _
    · rw [mark_enter_of_ne hz] at hd
      exact (get?_insert_of_ne _ _ (hne hz)).trans (h.owns hd)
  · intro z hclosed
    have hz : z ≠ x := by
      rintro rfl
      rw [mark_enter_self] at hclosed
      cases hclosed
    rw [mark_enter_of_ne hz] at hclosed
    obtain ⟨k, hk, hown, howed⟩ := h.closed hclosed
    exact ⟨k, hk, (get?_insert_of_ne _ _ (hne hz)).trans hown, howed⟩

end Enter

section Traverse

variable {nodes : List ν}

def freshCount (nodes : List ν) (s : State ν α) : Nat :=
  (nodes.filter fun z => s.mark z = .fresh).length

lemma freshCount_le (hm : ∀ z, s.mark z ≠ .fresh → t.mark z ≠ .fresh) : freshCount nodes t ≤ freshCount nodes s := by
  rw [freshCount, freshCount, ← countP_eq_length_filter, ← countP_eq_length_filter]
  apply countP_mono_left
  intro z _ hz
  rw [decide_eq_true_eq] at hz ⊢
  by_contra hne
  exact hm z hne hz

lemma freshCount_enter_lt (given : ν → Nat) (hx : s.mark x = .fresh) (hmem : x ∈ nodes) :
    freshCount nodes (enter given x s) < freshCount nodes s := by
  have hfilter : (nodes.filter fun z => (enter given x s).mark z = .fresh) =
      (nodes.filter fun z => s.mark z = .fresh).filter fun z => (enter given x s).mark z = .fresh := by
    rw [filter_filter]
    apply filter_congr
    intro z _
    by_cases hz : z = x
    · subst hz
      simp [mark_enter_self]
    · simp [mark_enter_of_ne hz]
  rw [freshCount, hfilter, freshCount]
  apply length_filter_lt_length_iff_exists.mpr
  exact ⟨x, mem_filter.mpr ⟨hmem, decide_eq_true hx⟩, by simp [mark_enter_self]⟩

lemma Treating.finish (h₀ : Invariant next given base s) (h : Treating next given base x s.stack (enter given x s) (next x) t)
    (hx : s.mark x = .fresh) (hg : given x < base.length) : Visited next given base x s
      (if t.mark x = .active (s.stack.length + 1) then State.close x (t.owner.getD x 0) t.stack t else t) := by
  obtain ⟨seg, d, hstack, hmark, hseg, hnext⟩ := h.open_
  have hgrow : Grows s t := (grows_enter hx).trans h.grows
  have hmarks : ∀ {z}, s.mark z ≠ .fresh → t.mark z = s.mark z := by
    intro z hz
    have hne : z ≠ x := by
      rintro rfl
      exact hz hx
    rw [h.marks hne (by rwa [mark_enter_of_ne hne]), mark_enter_of_ne hne]
  have hset : ∀ z ∈ x :: seg, Settled next given base t x d z := by
    intro z hz
    rcases mem_cons.mp hz with rfl | hz
    · exact ⟨d, hmark, Nat.le_refl d, fun a ha => h.inv.grown _ a ha, hnext⟩
    · exact hseg z hz
  split
  · rename_i hroot
    rw [hmark] at hroot
    obtain rfl := Mark.active.inj hroot
    have hown : t.owner.getD x 0 = given x := by rw [Registry.getD, h.inv.owns hmark, Option.getD_some]
    have hinv := h.inv.close hstack hg hset
    obtain ⟨hseg, hdisj⟩ := h.inv.not_mem_above hstack
    obtain ⟨hst, hcells, hin, hout⟩ := close_fields (given x) s.stack hseg t
    rw [hown, hstack]
    rw [hstack] at hinv
    have hclose : ∀ {z}, s.mark z ≠ .fresh →
        (State.close x (given x) (seg ++ x :: s.stack) t).mark z = s.mark z := by
      intro z hz
      by_cases hmem : z ∈ x :: seg
      · rw [(hin z hmem).1]
        cases hm : s.mark z with
        | fresh => exact absurd hm hz
        | closed => rfl
        | active e => exact absurd hmem (hdisj z ((h₀.stacked z).mpr ⟨e, hm⟩))
      · rw [(hout z hmem).1, hmarks hz]
    refine ⟨hinv, ⟨?_, ?_, ?_⟩, hclose, ?_, [], hst, fun _ hz => absurd hz not_mem_nil⟩
    · intro k a ha
      rw [State.cell, hcells]
      exact hgrow.cells k a ha
    · simp only [hst, suffix_rfl]
    · intro z hz
      rw [hclose (by rw [hz]; exact Mark.noConfusion), hz]
    · rw [(hin x mem_cons_self).1]
      exact Mark.noConfusion
  · rename_i hroot
    have hle : d ≤ s.stack.length := by
      have hlow := (h.inv.low hmark).2
      have hsuf : x :: s.stack <:+ t.stack := by
        rw [hstack]
        exact suffix_append seg _
      rw [State.height_of_suffix (s := enter given x s) hsuf mem_cons_self] at hlow
      have hlt := State.height_lt (s := enter given x s) (x := x) mem_cons_self
      have hlen : (enter given x s).stack.length = s.stack.length + 1 := rfl
      have hne : d ≠ s.stack.length + 1 := by
        rintro rfl
        exact hroot hmark
      omega
    refine ⟨h.inv, hgrow, hmarks, by rw [hmark]; exact Mark.noConfusion, seg ++ [x], by simp [hstack], ?_⟩
    intro z hz
    exact ⟨d, hle, hmark, hset z (by simpa [or_comm] using hz)⟩

lemma traverse_succ (n : Nat) (x : ν) (s : State ν α) :
    traverse next given (n + 1) x s =
      let t := (next x).foldl (fun s y => Digraph.meet (if s.mark y = .fresh then traverse next given n y s else s) x y)
        (enter given x s)
      if t.mark x = .active (s.stack.length + 1) then State.close x (t.owner.getD x 0) t.stack t else t := rfl

lemma Treating.freshCount_le {n : Nat} {treated : List ν} (hx : s.mark x = .fresh) (hmem : x ∈ nodes)
    (hn : freshCount nodes s ≤ n + 1) (h : Treating next given base x s.stack (enter given x s) treated t) :
    freshCount nodes t ≤ n := by
  have hlt := freshCount_enter_lt given hx hmem
  have hle : freshCount nodes t ≤ freshCount nodes (enter given x s) := by
    apply Digraph.freshCount_le
    intro z hz
    by_cases hzx : z = x
    · obtain ⟨-, d, -, hd, -⟩ := h.open_
      rw [hzx, hd]
      exact Mark.noConfusion
    · rwa [h.marks hzx hz]
  omega

lemma treating_enter (h : Invariant next given base s) (hx : s.mark x = .fresh) :
    Treating next given base x s.stack (enter given x s) [] (enter given x s) :=
  ⟨h.enter hx, ⟨fun _ _ ha => ha, suffix_rfl, fun hz => hz⟩, fun _ _ => rfl, [], _, rfl, mark_enter_self,
    fun _ hz => absurd hz not_mem_nil, fun _ hw => absurd hw not_mem_nil⟩

lemma freshCount_pos (hx : s.mark x = .fresh) (hmem : x ∈ nodes) : 0 < freshCount nodes s :=
  length_pos_of_mem (mem_filter.mpr ⟨hmem, decide_eq_true hx⟩)

omit [BEq ν] [LawfulBEq ν] [BEq α] [LawfulBEq α] in
lemma foldl_treated {P : List ν → State ν α → Prop} {f : State ν α → ν → State ν α} (xs : List ν)
    (step : ∀ treated x s, x ∈ xs → P treated s → P (treated ++ [x]) (f s x)) (treated : List ν) (h : P treated s) :
    P (treated ++ xs) (xs.foldl f s) := by
  induction xs generalizing treated s with
  | nil => rwa [append_nil]
  | cons x xs ih =>
    have := ih (fun treated y t hy => step treated y t (mem_cons_of_mem _ hy)) _ (step _ x s mem_cons_self h)
    rwa [append_assoc] at this

lemma visited_traverse (hnext : ∀ z ∈ nodes, ∀ w ∈ next z, w ∈ nodes) (hgiven : ∀ z ∈ nodes, given z < base.length)
    (n : Nat) (h : Invariant next given base s) (hx : s.mark x = .fresh) (hmem : x ∈ nodes)
    (hn : freshCount nodes s ≤ n) : Visited next given base x s (traverse next given n x s) := by
  induction n generalizing x s with
  | zero => exact absurd hn (Nat.not_le_of_lt (freshCount_pos hx hmem))
  | succ n ih =>
    rw [traverse_succ]
    refine Treating.finish h (foldl_treated (next x) (fun treated y t hxy ht => ?_) [] (treating_enter h hx)) hx (hgiven x hmem)
    have hy := hnext x hmem y hxy
    have hv := Visited.of_fresh ht.inv fun hyf => ih ht.inv hyf hy (ht.freshCount_le hx hmem hn)
    exact ht.visit hv (hgiven x hmem) (hgiven y hy)

lemma Visited.stack_eq_nil (h : Visited next given base y s t) (hs : s.stack = []) : t.stack = [] := by
  obtain ⟨seg, hstack, hseg⟩ := h.left
  rw [hs, append_nil] at hstack
  rw [hstack]
  cases seg with
  | nil => rfl
  | cons z seg =>
    obtain ⟨e, he, hmark, -⟩ := hseg z mem_cons_self
    have := (h.inv.low hmark).1
    rw [hs, length_nil] at he
    omega

end Traverse

end

section Solve

variable {nodes : List ν} {given : Slots ν α} {value : ν → List α} {x y : ν}

def HasCells (slots : Slots ν α) (nodes : List ν) : Prop :=
  ∀ x ∈ nodes, ∃ k < slots.cells.length, slots.owner.get? x = some k

lemma HasCells.lt (h : HasCells given nodes) (hx : x ∈ nodes) : given.owner.getD x 0 < given.cells.length := by
  obtain ⟨k, hk, hown⟩ := h x hx
  rwa [Registry.getD, hown, Option.getD_some]

lemma hasCells_ofLists (nodes : List ν) (value : ν → List α) : HasCells (Slots.ofLists nodes value) nodes := by
  intro x hx
  have hsome : ((nodes.zipIdx).find? fun e => e.1 == x).isSome := by
    rw [find?_isSome]
    obtain ⟨k, hk⟩ := mem_iff_getElem?.mp hx
    exact ⟨(x, k), mem_zipIdx_iff_getElem?.mpr hk, beq_self_eq_true x⟩
  obtain ⟨⟨y, k⟩, he⟩ := Option.isSome_iff_exists.mp hsome
  have hk := mem_zipIdx_iff_getElem?.mp (mem_of_find?_eq_some he)
  refine ⟨k, ?_, ?_⟩
  · simpa [Slots.ofLists] using (List.getElem?_eq_some_iff.mp hk).1
  · simp [Slots.ofLists, Registry.get?, he]

lemma getElem?_of_owner {nodes : List ν} {k : Nat}
    (hown : (Slots.ofLists nodes value).owner.get? x = some k) : nodes[k]? = some x := by
  obtain ⟨⟨y, l⟩, he, hb, hl⟩ := mem_of_get? hown
  obtain rfl : y = x := eq_of_beq hb
  obtain rfl : l = k := hl
  exact mem_zipIdx_iff_getElem?.mp he

lemma get_ofLists {nodes : List ν} (value : ν → List α) (hx : x ∈ nodes) :
    (Slots.ofLists nodes value).get x = value x := by
  obtain ⟨k, -, hown⟩ := hasCells_ofLists nodes value x hx
  rw [Slots.get, hown]
  simp [Slots.ofLists, getElem?_of_owner hown]

lemma eq_of_owner_ofLists {nodes : List ν} (hx : x ∈ nodes) (hy : y ∈ nodes)
    (h : (Slots.ofLists nodes value).owner.getD x 0 = (Slots.ofLists nodes value).owner.getD y 0) : x = y := by
  obtain ⟨k, -, hxk⟩ := hasCells_ofLists nodes value x hx
  obtain ⟨l, -, hyl⟩ := hasCells_ofLists nodes value y hy
  obtain rfl : k = l := by simpa [Registry.getD, hxk, hyl] using h
  exact Option.some.inj ((getElem?_of_owner hxk).symm.trans (getElem?_of_owner hyl))

def initial (nodes : List ν) (cells : List (List α)) : State ν α :=
  ⟨⟨nodes.map (·, .fresh)⟩, [], {}, cells⟩

lemma mark_initial (nodes : List ν) (cells : List (List α)) (x : ν) : (initial nodes cells).mark x = .fresh := by
  unfold initial State.mark Registry.getD Registry.get?
  cases h : (nodes.map (·, Mark.fresh)).find? fun e => e.1 == x with
  | none => rfl
  | some e =>
    obtain ⟨y, -, rfl⟩ := mem_map.mp (mem_of_find?_eq_some h)
    rfl

lemma invariant_initial (next : ν → List ν) (given : ν → Nat) (nodes : List ν) (cells : List (List α)) :
    Invariant next given cells (initial nodes cells) where
  length := rfl
  grown _ _ ha := ha
  nodup := nodup_nil
  stacked z := by
    rw [mark_initial]
    exact ⟨fun h => absurd h not_mem_nil, fun ⟨_, h⟩ => Mark.noConfusion h⟩
  low h := by
    rw [mark_initial] at h
    cases h
  owns h := by
    rw [mark_initial] at h
    cases h
  closed h := by
    rw [mark_initial] at h
    cases h

def settled (nodes : List ν) (next : ν → List ν) (given : Slots ν α) : State ν α :=
  nodes.foldl (fun s x =>
    if s.mark x = .fresh then traverse next (given.owner.getD · 0) (nodes.length + 1) x s else s)
    (initial nodes given.cells)

lemma solve_eq (nodes : List ν) (next : ν → List ν) (given : Slots ν α) :
    solve nodes next given = ⟨(settled nodes next given).owner, (settled nodes next given).cells⟩ := rfl

variable (hnext : ∀ x ∈ nodes, ∀ y ∈ next x, y ∈ nodes)

include hnext

lemma visited_next (hgiven : HasCells given nodes) {s : State ν α} (h : Invariant next (given.owner.getD · 0) given.cells s)
    (hx : x ∈ nodes) : Visited next (given.owner.getD · 0) given.cells x s
      (if s.mark x = .fresh then traverse next (given.owner.getD · 0) (nodes.length + 1) x s else s) :=
  Visited.of_fresh h fun hfresh => visited_traverse hnext (fun _ hz => hgiven.lt hz) _ h hfresh hx
    (Nat.le_succ_of_le (length_filter_le _ _))

lemma solved (hgiven : HasCells given nodes) :
    Invariant next (given.owner.getD · 0) given.cells (settled nodes next given) ∧
      ∀ x ∈ nodes, (settled nodes next given).mark x = .closed := by
  obtain ⟨h, hstack, hall⟩ := foldl_treated (P := fun treated s => Invariant next (given.owner.getD · 0) given.cells s ∧
    s.stack = [] ∧ ∀ z ∈ treated, s.mark z ≠ .fresh) nodes (fun treated x s hx ⟨h, hstack, hall⟩ => by
      have hv := visited_next hnext hgiven h hx
      refine ⟨hv.inv, hv.stack_eq_nil hstack, forall_mem_append.mpr ⟨fun z hz => ?_, forall_mem_singleton.mpr hv.treated⟩⟩
      rw [hv.marks (hall z hz)]
      exact hall z hz) [] ⟨invariant_initial next _ nodes given.cells, rfl, forall_mem_nil _⟩
  refine ⟨h, ?_⟩
  intro x hx
  cases hm : State.mark _ x with
  | fresh => exact absurd hm (hall x hx)
  | closed => rfl
  | active d =>
    have hmem := (h.stacked x).mpr ⟨d, hm⟩
    rw [hstack] at hmem
    cases hmem

lemma hasCells_solve (hgiven : HasCells given nodes) : HasCells (solve nodes next given) nodes := by
  obtain ⟨h, hclosed⟩ := solved hnext hgiven
  rw [solve_eq]
  intro x hx
  obtain ⟨k, hk, hown, -⟩ := h.closed (hclosed x hx)
  exact ⟨k, Nat.lt_of_lt_of_eq hk h.length.symm, hown⟩

/-- A solved node holds what was given for the nodes that it reaches. -/
theorem mem_solve (hgiven : HasCells given nodes) (hx : x ∈ nodes)
    (hreach : Relation.ReflTransGen (fun u v => v ∈ next u) x y) {a : α} (ha : a ∈ given.get y) :
    a ∈ (solve nodes next given).get x := by
  obtain ⟨h, hclosed⟩ := solved hnext hgiven
  have hy : y ∈ nodes := by
    clear ha
    induction hreach with
    | refl => exact hx
    | tail _ hstep ih => exact hnext _ ih _ hstep
  obtain ⟨k, -, hown, howed⟩ := h.closed (hclosed x hx)
  obtain ⟨l, -, hl⟩ := hgiven y hy
  have hmem := howed a ⟨y, hreach, by simpa [Slots.get, Registry.getD, hl] using ha⟩
  simpa [solve_eq, Slots.get, hown, State.cell] using hmem

end Solve

section Bounded

/-- A property of lists that is kept when the elements that are missing are added from another. -/
structure Joins (Q : List α → Prop) : Prop where
  nil : Q []
  join : ∀ {xs ys}, Q xs → Q ys → Q (xs.foldl (fun seen a => if seen.contains a then seen else seen ++ [a]) ys)

lemma joins_forall (P : α → Prop) : Joins fun held : List α => ∀ a ∈ held, P a where
  nil := forall_mem_nil P
  join hxs hys a ha := ((mem_foldl_distinct _ _ a).mp ha).elim (hys a) (hxs a)

lemma joins_nodup : Joins (List.Nodup : List α → Prop) where
  nil := nodup_nil
  join _ hys := nodup_foldl_distinct _ hys

def Bounded (Q : List α → Prop) (cells : List (List α)) : Prop :=
  ∀ held ∈ cells, Q held

variable {Q : List α → Prop} {s : State ν α}

lemma Bounded.cell {cells : List (List α)} (h : Bounded Q cells) (hQ : Joins Q) (k : Nat) : Q (cells[k]?.getD []) := by
  cases hk : cells[k]? with
  | none => exact hQ.nil
  | some held => exact h held (mem_of_getElem? hk)

variable (hQ : Joins Q)

include hQ

lemma Bounded.absorb (h : Bounded Q s.cells) (x y : ν) : Bounded Q (s.absorb x y).cells := by
  unfold State.absorb
  split
  · intro held hmem
    rcases mem_or_eq_of_mem_set hmem with hmem | rfl
    · exact h held hmem
    · exact hQ.join (h.cell hQ _) (h.cell hQ _)
  · exact h

omit hQ in
lemma Bounded.close (x : ν) (cell : Nat) (stack : List ν) {s : State ν α} (h : Bounded Q s.cells) :
    Bounded Q (State.close x cell stack s).cells := by
  induction stack generalizing s with
  | nil => exact h
  | cons y stack ih =>
    rw [State.close]
    split
    · exact h
    · exact ih h

lemma Bounded.traverse (next : ν → List ν) (given : ν → Nat) (n : Nat) (x : ν) {s : State ν α}
    (h : Bounded Q s.cells) : Bounded Q (traverse next given n x s).cells := by
  induction n generalizing x s with
  | zero => exact h
  | succ n ih =>
    have hloop : ∀ (ys : List ν) (t : State ν α), Bounded Q t.cells → Bounded Q (ys.foldl
        (fun s y => Digraph.meet (if s.mark y = .fresh then Digraph.traverse next given n y s else s) x y) t).cells := by
      intro ys
      induction ys with
      | nil => exact fun _ ht => ht
      | cons y ys ihys =>
        intro t ht
        refine ihys _ (Bounded.absorb hQ ?_ x y)
        change Bounded Q (if t.mark y = .fresh then Digraph.traverse next given n y t else t).cells
        split
        · exact ih y ht
        · exact ht
    have hdone := hloop (next x) (enter given x s) h
    rw [traverse_succ]
    dsimp only
    split
    · exact hdone.close x _ _
    · exact hdone

lemma Bounded.solve {nodes : List ν} (next : ν → List ν) {given : Slots ν α} (h : Bounded Q given.cells) :
    Bounded Q (solve nodes next given).cells := by
  have hloop : ∀ (xs : List ν) (s : State ν α), Bounded Q s.cells → Bounded Q (xs.foldl (fun s x =>
      if s.mark x = .fresh then Digraph.traverse next (given.owner.getD · 0) (nodes.length + 1) x s else s) s).cells := by
    intro xs
    induction xs with
    | nil => exact fun _ hs => hs
    | cons x xs ih =>
      intro s hs
      refine ih _ ?_
      beta_reduce
      split
      · exact Bounded.traverse hQ next _ _ x hs
      · exact hs
  exact hloop nodes (initial nodes given.cells) h

lemma Bounded.get {slots : Slots ν α} (h : Bounded Q slots.cells) (x : ν) : Q (slots.get x) := by
  unfold Slots.get
  split
  · exact hQ.nil
  · exact h.cell hQ _

end Bounded

end LispKit.Digraph
