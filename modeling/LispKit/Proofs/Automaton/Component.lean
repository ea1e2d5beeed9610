import LispKit.Proofs.Automaton.Digraph

/-! Components: a solved node holds nothing but what was given for the nodes that it is linked to.

Every node on the stack leads to the nodes above it, and the mark of an active node is the depth of a node that
it leads to. So the nodes that are finished together lead to one another. Nodes that were given one cell stay
linked: what one of them absorbs is held for the others too. -/

namespace LispKit.Digraph

open Relation List

variable {ν α : Type} [BEq ν] [LawfulBEq ν] [BEq α] [LawfulBEq α]

def Leads (next : ν → List ν) : ν → ν → Prop :=
  ReflTransGen fun x y => y ∈ next x

def Linked (nodes : List ν) (next : ν → List ν) (given : ν → Nat) (x y : ν) : Prop :=
  y ∈ next x ∨ x ∈ nodes ∧ y ∈ nodes ∧ given x = given y

def Sourced (nodes : List ν) (next : ν → List ν) (given : ν → Nat) (base : List (List α)) (x : ν) (a : α) : Prop :=
  ∃ y, ReflTransGen (Linked nodes next given) x y ∧ a ∈ base[given y]?.getD []

structure Confined (nodes : List ν) (next : ν → List ν) (given : ν → Nat) (base : List (List α)) (s : State ν α) :
    Prop where
  cells : ∀ x ∈ nodes, ∀ a ∈ s.cell (given x), Sourced nodes next given base x a
  attained : ∀ {z d}, s.mark z = .active d → ∃ w ∈ s.stack, s.height w + 1 = d ∧ Leads next z w
  ordered : ∀ u ∈ s.stack, ∀ w ∈ s.stack, s.height u ≤ s.height w → Leads next u w
  component : ∀ {z}, s.mark z = .closed →
    ∃ r ∈ nodes, s.owner.get? z = some (given r) ∧ Leads next z r ∧ Leads next r z

variable {nodes : List ν} {next : ν → List ν} {given : ν → Nat} {base : List (List α)} {s t : State ν α} {x y z : ν}
  {d : Nat}

omit [BEq ν] [LawfulBEq ν] in
lemma Leads.linked (h : Leads next x y) : ReflTransGen (Linked nodes next given) x y := by
  induction h with
  | refl => exact .refl
  | tail _ hstep ih => exact ih.tail (.inl hstep)

omit [BEq ν] [LawfulBEq ν] [BEq α] [LawfulBEq α] in
lemma Sourced.of_linked (hxy : ReflTransGen (Linked nodes next given) x y) {a : α}
    (ha : Sourced nodes next given base y a) : Sourced nodes next given base x a := by
  obtain ⟨z, hyz, hz⟩ := ha
  exact ⟨z, hxy.trans hyz, hz⟩

omit [BEq α] [LawfulBEq α] in
lemma State.mem_of_height_lt {seg below : List ν} (hstack : s.stack = seg ++ below)
    (hlt : s.height z < below.length) : z ∈ below := by
  by_contra hb
  rw [State.height, hstack, reverse_append,
    idxOf_append_of_notMem (by rwa [mem_reverse]), length_reverse] at hlt
  omega

section Steps

variable (h : Invariant next given base s) (hc : Confined nodes next given base s)

include h hc

lemma Confined.enter (hx : s.mark x = .fresh) (hleads : ∀ u ∈ s.stack, Leads next u x) :
    Confined nodes next given base (enter given x s) := by
  have hgrow : Grows s (Digraph.enter given x s) := grows_enter hx
  have htop : (Digraph.enter given x s).height x = s.stack.length := by
    have hmem : x ∉ s.stack := by
      intro hmem
      obtain ⟨d, hd⟩ := (h.stacked x).mp hmem
      rw [hx] at hd
      cases hd
    rw [State.height, Digraph.enter, reverse_cons, idxOf_append_of_notMem (by rwa [mem_reverse]),
      idxOf_cons_self, length_reverse]
    rfl
  refine ⟨hc.cells, ?_, ?_, ?_⟩
  · intro z d hd
    by_cases hz : z = x
    · subst hz
      rw [mark_enter_self] at hd
      exact ⟨z, mem_cons_self, by rw [htop]; exact Mark.active.inj hd, .refl⟩
    · rw [mark_enter_of_ne hz] at hd
      obtain ⟨w, hw, hheight, hzw⟩ := hc.attained hd
      exact ⟨w, mem_cons_of_mem _ hw, by rw [State.height_of_suffix hgrow.stack hw, hheight], hzw⟩
  · intro u hu w hw hle
    rcases mem_cons.mp hw with rfl | hw'
    · rcases mem_cons.mp hu with rfl | hu'
      · exact .refl
      · exact hleads u hu'
    · rw [State.height_of_suffix hgrow.stack hw'] at hle
      rcases mem_cons.mp hu with rfl | hu'
      · have hlt := State.height_lt hw'
        omega
      · rw [State.height_of_suffix hgrow.stack hu'] at hle
        exact hc.ordered u hu' w hw' hle
  · intro z hz
    have hne : z ≠ x := by
      rintro rfl
      rw [mark_enter_self] at hz
      cases hz
    rw [mark_enter_of_ne hne] at hz
    obtain ⟨r, hr, hown, hlink⟩ := hc.component hz
    exact ⟨r, hr, (Registry.get?_insert_of_ne _ _ (beq_eq_false_iff_ne.mpr (Ne.symm hne))).trans hown, hlink⟩

omit [LawfulBEq ν] [BEq α] [LawfulBEq α] in
lemma Confined.exists_owner (hy : s.mark y ≠ .fresh) (hmem : y ∈ nodes) :
    ∃ l, s.owner.get? y = some l ∧ ∀ a ∈ s.cell l, Sourced nodes next given base y a := by
  cases hm : s.mark y with
  | fresh => exact absurd hm hy
  | closed =>
    obtain ⟨r, hr, hown, hyr, -⟩ := hc.component hm
    exact ⟨_, hown, fun a ha => .of_linked hyr.linked (hc.cells r hr a ha)⟩
  | active e => exact ⟨_, h.owns hm, hc.cells y hmem⟩

lemma Confined.meet (hgx : given x < base.length) (hx : s.mark x = .active d) (hy : s.mark y ≠ .fresh)
    (hmem : x ∈ nodes) (hmemy : y ∈ nodes) (hxy : y ∈ next x) : Confined nodes next given base (meet s x y) := by
  obtain ⟨l, hl, hsource⟩ := hc.exists_owner h hy hmemy
  obtain ⟨e, -, hmark, -, hor⟩ := mark_meet_self hx hy
  refine ⟨?_, ?_, ?_, ?_⟩
  · intro z hz a ha
    rcases (mem_cell_meet h hx hgx hl _ a).mp ha with ha | ⟨hsame, ha⟩
    · exact hc.cells z hz a ha
    · -- the cell is also that of every node that was given it
      have hzy : ReflTransGen (Linked nodes next given) z y :=
        .head (.inr ⟨hz, hmem, hsame⟩) (.single (.inl hxy))
      exact .of_linked hzy (hsource a ha)
  · intro z f hf
    simp only [meet_stack, height_meet]
    by_cases hz : z = x
    · subst hz
      rw [hmark] at hf
      obtain rfl := Mark.active.inj hf
      rcases hor with rfl | hye
      · exact hc.attained hx
      · obtain ⟨w, hw, hheight, hyw⟩ := hc.attained hye
        exact ⟨w, hw, hheight, .head hxy hyw⟩
    · rw [mark_meet_of_ne hz] at hf
      exact hc.attained hf
  · intro u hu w hw hle
    rw [meet_stack] at hu hw
    rw [height_meet, height_meet] at hle
    exact hc.ordered u hu w hw hle
  · intro z hz
    have hne : z ≠ x := by
      rintro rfl
      rw [hmark] at hz
      cases hz
    rw [mark_meet_of_ne hne] at hz
    rw [meet_owner]
    exact hc.component hz

lemma Confined.close {seg below : List ν} (hstack : s.stack = seg ++ x :: below) (hmem : x ∈ nodes)
    (hleads : ∀ u ∈ s.stack, Leads next u x) : Confined nodes next given base (State.close x (given x) s.stack s) := by
  obtain ⟨hx, hdisj⟩ := h.not_mem_above hstack
  have hsuf : x :: below <:+ s.stack := ⟨seg, hstack.symm⟩
  have hbelow : below <:+ s.stack := (suffix_cons x below).trans hsuf
  have hfrom : ∀ z ∈ x :: seg, z ∈ s.stack ∧ Leads next x z := by
    intro z hz
    have hzs : z ∈ s.stack := by
      rw [hstack, mem_append, mem_cons]
      exact (mem_cons.mp hz).elim (fun he => .inr (.inl he)) .inl
    refine ⟨hzs, hc.ordered x (hsuf.subset mem_cons_self) z hzs ?_⟩
    by_contra hlt
    have hlow : s.height x < (x :: below).length := by
      rw [State.height_of_suffix (s := { s with stack := x :: below }) hsuf mem_cons_self]
      exact State.height_lt (s := { s with stack := x :: below }) mem_cons_self
    have hsplit : s.stack = (seg ++ [x]) ++ below := by rw [hstack]; simp
    exact hdisj z (State.mem_of_height_lt hsplit (by rw [length_cons] at hlow; omega)) hz
  rw [hstack]
  obtain ⟨hst, hcells, hin, hout⟩ := close_fields (given x) below hx s
  set t := State.close x (given x) (seg ++ x :: below) s with ht
  have hheight : ∀ z ∈ below, t.height z = s.height z := by
    intro z hz
    exact (State.height_of_suffix (s := t) (t := s) (hst ▸ hbelow) (hst ▸ hz)).symm
  refine ⟨?_, ?_, ?_, ?_⟩
  · intro z hz a ha
    rw [State.cell, hcells] at ha
    exact hc.cells z hz a ha
  · intro z e he
    have hz : z ∉ x :: seg := by
      intro hz
      rw [(hin z hz).1] at he
      cases he
    rw [(hout z hz).1] at he
    obtain ⟨w, hw, hwe, hzw⟩ := hc.attained he
    have hzb : z ∈ below := by
      have hzs := (h.stacked z).mpr ⟨e, he⟩
      rw [hstack, mem_append, mem_cons] at hzs
      rw [mem_cons] at hz
      tauto
    have hlt : s.height z < below.length := by
      rw [State.height_of_suffix (s := { s with stack := below }) hbelow hzb]
      exact State.height_lt (s := { s with stack := below }) hzb
    have hlow := (h.low he).2
    have hsplit : s.stack = (seg ++ [x]) ++ below := by rw [hstack]; simp
    have hwb : w ∈ below := State.mem_of_height_lt hsplit (by omega)
    exact ⟨w, hst ▸ hwb, by rw [hheight w hwb, hwe], hzw⟩
  · intro u hu w hw hle
    rw [hst] at hu hw
    rw [hheight u hu, hheight w hw] at hle
    exact hc.ordered u (hbelow.subset hu) w (hbelow.subset hw) hle
  · intro z hz
    by_cases hzx : z ∈ x :: seg
    · exact ⟨x, hmem, (hin z hzx).2, hleads z (hfrom z hzx).1, (hfrom z hzx).2⟩
    · rw [(hout z hzx).1] at hz
      rw [(hout z hzx).2]
      exact hc.component hz

end Steps

section Traverse

lemma Confined.finish (h₀ : Invariant next given base s)
    (h : Treating next given base x s.stack (Digraph.enter given x s) (next x) t)
    (hc : Confined nodes next given base t) (hx : s.mark x = .fresh) (hmem : x ∈ nodes) (hg : given x < base.length)
    (hback : ∀ u ∈ t.stack, Leads next u x) :
    let t' := if t.mark x = .active (s.stack.length + 1) then State.close x (t.owner.getD x 0) t.stack t else t
    Confined nodes next given base t' ∧ ∀ z ∈ t'.stack, ∃ w ∈ s.stack, Leads next z w := by
  have hv := h.finish h₀ hx hg
  obtain ⟨seg, d, hstack, hmark, -⟩ := h.open_
  have hown : t.owner.getD x 0 = given x := by rw [Registry.getD, h.inv.owns hmark, Option.getD_some]
  dsimp only
  split
  · rename_i hroot
    rw [if_pos hroot] at hv
    rw [hown] at hv ⊢
    refine ⟨hc.close h.inv hstack hmem hback, ?_⟩
    rw [hstack, (close_fields (given x) s.stack (h.inv.not_mem_above hstack).1 t).1]
    exact fun z hz => ⟨z, hz, .refl⟩
  · rename_i hroot
    rw [if_neg hroot] at hv
    refine ⟨hc, fun z hz => ?_⟩
    obtain ⟨left, hleft, hlow⟩ := hv.left
    have hxleft : x ∈ left := by
      have hsame : left = seg ++ [x] := by
        rw [hstack] at hleft
        exact append_cancel_right (hleft.symm.trans (by simp))
      simp [hsame]
    obtain ⟨e, he, hmark, -⟩ := hlow x hxleft
    obtain ⟨w, -, hwe, hxw⟩ := hc.attained hmark
    exact ⟨w, State.mem_of_height_lt hleft (by omega), (hback z hz).trans hxw⟩

variable (hnext : ∀ z ∈ nodes, ∀ w ∈ next z, w ∈ nodes) (hgiven : ∀ z ∈ nodes, given z < base.length)

include hnext hgiven

lemma Confined.traverse (n : Nat) (h : Invariant next given base s) (hc : Confined nodes next given base s)
    (hx : s.mark x = .fresh) (hmem : x ∈ nodes) (hn : freshCount nodes s ≤ n) (hleads : ∀ u ∈ s.stack, Leads next u x) :
    Confined nodes next given base (Digraph.traverse next given n x s) ∧
      ∀ z ∈ (Digraph.traverse next given n x s).stack, ∃ w ∈ s.stack, Leads next z w := by
  induction n generalizing x s with
  | zero => exact absurd hn (Nat.not_le_of_lt (freshCount_pos hx hmem))
  | succ n ih =>
    have hstart : ∀ u ∈ (Digraph.enter given x s).stack, Leads next u x :=
      forall_mem_cons.mpr ⟨.refl, hleads⟩
    obtain ⟨ht, hct, hback⟩ := foldl_treated (P := fun treated t =>
      Treating next given base x s.stack (Digraph.enter given x s) treated t ∧ Confined nodes next given base t ∧
        ∀ u ∈ t.stack, Leads next u x) (next x) (fun treated y t hxy ⟨ht, hct, hback⟩ => by
      have hy : y ∈ nodes := hnext x hmem y hxy
      have hfresh := ht.freshCount_le hx hmem hn
      have hv := Visited.of_fresh ht.inv fun hyf => visited_traverse hnext hgiven n ht.inv hyf hy hfresh
      have hvisit : Confined nodes next given base (if t.mark y = .fresh then Digraph.traverse next given n y t else t) ∧
          ∀ z ∈ (if t.mark y = .fresh then Digraph.traverse next given n y t else t).stack,
            ∃ w ∈ t.stack, Leads next z w := by
        split
        · rename_i hyf
          exact ih ht.inv hct hyf hy hfresh fun u hu => (hback u hu).tail hxy
        · exact ⟨hct, fun z hz => ⟨z, hz, .refl⟩⟩
      obtain ⟨-, d, -, hd, -⟩ := ht.open_
      have hd' := hv.marks (by rw [hd]; exact Mark.noConfusion) |>.trans hd
      refine ⟨ht.visit hv (hgiven x hmem) (hgiven y hy),
        hvisit.1.meet hv.inv (hgiven x hmem) hd' hv.treated hmem hy hxy, fun u hu => ?_⟩
      rw [meet_stack] at hu
      obtain ⟨w, hw, huw⟩ := hvisit.2 u hu
      exact huw.trans (hback w hw)) [] ⟨treating_enter h hx, hc.enter h hx hleads, hstart⟩
    rw [traverse_succ]
    exact hct.finish h ht hx hmem (hgiven x hmem) hback

end Traverse

lemma confined_initial (nodes : List ν) (next : ν → List ν) (given : ν → Nat) (cells : List (List α)) :
    Confined nodes next given cells (initial nodes cells) where
  cells x _ _ ha := ⟨x, .refl, ha⟩
  attained h := by
    rw [mark_initial] at h
    cases h
  ordered _ hu := absurd hu not_mem_nil
  component h := by
    rw [mark_initial] at h
    cases h

section Solve

variable {given : Slots ν α} (hnext : ∀ x ∈ nodes, ∀ y ∈ next x, y ∈ nodes) (hgiven : HasCells given nodes)

include hnext hgiven

lemma confined_settled : Confined nodes next (given.owner.getD · 0) given.cells (settled nodes next given) := by
  refine (foldl_treated (P := fun _ s => Invariant next (given.owner.getD · 0) given.cells s ∧ s.stack = [] ∧
    Confined nodes next (given.owner.getD · 0) given.cells s) nodes (fun _ x s hx ⟨h, hstack, hc⟩ => ?_) []
    ⟨invariant_initial next _ nodes given.cells, rfl, confined_initial nodes next _ given.cells⟩).2.2
  have hv := visited_next hnext hgiven h hx
  refine ⟨hv.inv, hv.stack_eq_nil hstack, ?_⟩
  split
  · rename_i hfresh
    exact (hc.traverse hnext (fun _ hz => hgiven.lt hz) _ h hfresh hx (Nat.le_succ_of_le (length_filter_le _ _))
      (by simp [hstack])).1
  · exact hc

/-- What a solved node holds was given for a node that it is linked to. -/
theorem exists_linked_of_mem_solve (hx : x ∈ nodes) {a : α} (ha : a ∈ (solve nodes next given).get x) :
    ∃ y ∈ nodes, ReflTransGen (Linked nodes next (given.owner.getD · 0)) x y ∧ a ∈ given.get y := by
  obtain ⟨-, hclosed⟩ := solved hnext hgiven
  have hc := confined_settled hnext hgiven
  obtain ⟨r, hr, hown, hxr, -⟩ := hc.component (hclosed x hx)
  have hcell : a ∈ (settled nodes next given).cell (given.owner.getD r 0) := by
    simpa [solve_eq, Slots.get, hown, State.cell] using ha
  obtain ⟨y, hry, hy⟩ := hc.cells r hr a hcell
  have hmem : ∀ {u v}, u ∈ nodes → ReflTransGen (Linked nodes next (given.owner.getD · 0)) u v → v ∈ nodes := by
    intro u v hu huv
    induction huv with
    | refl => exact hu
    | tail _ hstep ih => exact hstep.elim (hnext _ ih _) fun hshare => hshare.2.1
  have hynodes := hmem hr hry
  refine ⟨y, hynodes, hxr.linked.trans hry, ?_⟩
  obtain ⟨l, -, hl⟩ := hgiven y hynodes
  simpa [Slots.get, Registry.getD, hl] using hy

theorem leads_of_owner_eq (hown : ∀ x ∈ nodes, ∀ y ∈ nodes, given.owner.getD x 0 = given.owner.getD y 0 → x = y)
    (hx : x ∈ nodes) (hy : y ∈ nodes)
    (heq : (solve nodes next given).owner.getD x 0 = (solve nodes next given).owner.getD y 0) : Leads next x y := by
  obtain ⟨-, hclosed⟩ := solved hnext hgiven
  have hc := confined_settled hnext hgiven
  obtain ⟨r, hr, hxown, hxr, -⟩ := hc.component (hclosed x hx)
  obtain ⟨r', hr', hyown, -, hry⟩ := hc.component (hclosed y hy)
  have hsame : given.owner.getD r 0 = given.owner.getD r' 0 := by
    simpa [solve_eq, Registry.getD, hxown, hyown] using heq
  obtain rfl := hown r hr r' hr' hsame
  exact hxr.trans hry

end Solve

section Lists

variable {value : ν → List α} (hnext : ∀ x ∈ nodes, ∀ y ∈ next x, y ∈ nodes)

lemma Leads.of_linked (h : ReflTransGen (Linked nodes next ((Slots.ofLists nodes value).owner.getD · 0)) x y) :
    Leads next x y := by
  induction h with
  | refl => exact .refl
  | tail _ hstep ih =>
    rcases hstep with hread | ⟨hu, hv, hown⟩
    · exact ih.tail hread
    · exact eq_of_owner_ofLists hu hv hown ▸ ih

include hnext

omit [BEq ν] [LawfulBEq ν] in
lemma Leads.mem (h : Leads next x y) (hx : x ∈ nodes) : y ∈ nodes := by
  induction h with
  | refl => exact hx
  | tail _ hstep ih => exact hnext _ ih _ hstep

/-- Where every node is given a list of its own, a solved node holds the lists of the nodes that it leads to. -/
theorem mem_solve_ofLists (hx : x ∈ nodes) {a : α} :
    a ∈ (solve nodes next (Slots.ofLists nodes value)).get x ↔ ∃ y, Leads next x y ∧ a ∈ value y := by
  constructor
  · intro ha
    obtain ⟨y, hy, hlinked, hgiven⟩ := exists_linked_of_mem_solve hnext (hasCells_ofLists nodes value) hx ha
    rw [get_ofLists value hy] at hgiven
    exact ⟨y, .of_linked hlinked, hgiven⟩
  · rintro ⟨y, hleads, ha⟩
    refine mem_solve hnext (hasCells_ofLists nodes value) hx hleads ?_
    rwa [get_ofLists value (hleads.mem hnext hx)]

/-- Every node is given a list, without repetitions if those given have none, of what was given for the nodes that it
leads to; nodes that lead to each other are given the same elements. -/
theorem solve_least (hvalue : ∀ x ∈ nodes, (value x).Nodup) :
    HasCells (solve nodes next (Slots.ofLists nodes value)) nodes ∧ ∀ x ∈ nodes,
      ((solve nodes next (Slots.ofLists nodes value)).get x).Nodup ∧
      (∀ a, a ∈ (solve nodes next (Slots.ofLists nodes value)).get x ↔ ∃ y, Leads next x y ∧ a ∈ value y) ∧
      ∀ y, Leads next x y → Leads next y x → List.Perm ((solve nodes next (Slots.ofLists nodes value)).get x)
        ((solve nodes next (Slots.ofLists nodes value)).get y) := by
  have hbounded : Bounded List.Nodup (Slots.ofLists nodes value).cells := by
    intro held hheld
    obtain ⟨x, hx, rfl⟩ := mem_map.mp hheld
    exact hvalue x hx
  have hnodup : ∀ x, ((solve nodes next (Slots.ofLists nodes value)).get x).Nodup :=
    Bounded.get joins_nodup (Bounded.solve joins_nodup next hbounded)
  refine ⟨hasCells_solve hnext (hasCells_ofLists nodes value), fun x hx => ⟨hnodup x, fun a => ?_, fun y hxy hyx => ?_⟩⟩
  · exact mem_solve_ofLists hnext hx
  · rw [perm_ext_iff_of_nodup (hnodup x) (hnodup y)]
    intro a
    rw [mem_solve_ofLists hnext hx, mem_solve_ofLists hnext (hxy.mem hnext hx)]
    exact ⟨fun ⟨z, hz, ha⟩ => ⟨z, hyx.trans hz, ha⟩, fun ⟨z, hz, ha⟩ => ⟨z, hxy.trans hz, ha⟩⟩

end Lists

def looped (n : Nat) : List Nat :=
  if n = 0 then [1] else if n = 1 then [0, 2] else []

theorem solve_least_looped : (∀ x ∈ [0, 1, 2], ∀ y ∈ looped x, y ∈ [0, 1, 2]) ∧
    List.Perm ((solve [0, 1, 2] looped (Slots.ofLists [0, 1, 2] fun n => [n, 7])).get 0)
      ((solve [0, 1, 2] looped (Slots.ofLists [0, 1, 2] fun n => [n, 7])).get 1) := by
  have hnext : ∀ x ∈ [0, 1, 2], ∀ y ∈ looped x, y ∈ [0, 1, 2] := by decide
  have hleads : Leads looped 0 1 ∧ Leads looped 1 0 := ⟨.single (by decide), .single (by decide)⟩
  exact ⟨hnext, ((solve_least hnext (by decide)).2 0 (by decide)).2.2 1 hleads.1 hleads.2⟩

end LispKit.Digraph
