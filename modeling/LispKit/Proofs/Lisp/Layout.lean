import LispKit.Proofs.Lisp.Walk
import Mathlib.Algebra.Order.Field.Rat
import Mathlib.Tactic.LinearCombination

/-! Drawings of trees in exact arithmetic: one sweep over the tree, every node half a distance to the right of the one
before it. -/

namespace LispKit.Lisp

open Lexeme List

section Labels

variable {m n : Node} {c : Char}

lemma takeWhile_stop {p : Char → Bool} {as bs : List Char} (has : ∀ a ∈ as, p a = true) (hc : p c = false) :
    (as ++ c :: bs).takeWhile p = as := by
  rw [takeWhile_append_of_pos has, takeWhile_cons_of_neg (by simp [hc]), append_nil]

lemma numeral_plain {i : Int} (h : c ∈ numeral i) : c ≠ '_' ∧ c ≠ '\n' := by
  have hdigit : ∀ c ∈ Nat.toDigits 10 i.natAbs, c ≠ '_' ∧ c ≠ '\n' := by
    intro c hc
    have hdigit := Nat.isDigit_of_mem_toDigits (by decide) (by decide) hc
    constructor <;> rintro rfl <;> cases hdigit
  by_cases hi : i < 0
  · rw [numeral_of_neg hi] at h
    rcases mem_cons.mp h with rfl | h
    · decide
    · exact hdigit c h
  · rw [numeral_of_nonneg hi] at h
    exact hdigit c h

lemma Node.toList_label {l : String} (h : n.label = .ok l) :
    ∃ rest, l.toList = (n.kind.name.toList ++ '_' :: numeral n.id) ++ '\n' :: rest := by
  rw [Node.label] at h
  cases hv : n.value.display with
  | error e =>
    rw [hv] at h
    cases h
  | ok v =>
    rw [hv] at h
    obtain rfl := Except.ok.inj h
    exact ⟨'[' :: (v.toList ++ [']']), by simp [numeral]⟩

lemma Node.id_of_label {l : String} (hm : '\n' ∉ m.kind.name.toList) (hn : '\n' ∉ n.kind.name.toList)
    (h : m.label = .ok l) (h' : n.label = .ok l) : m.id = n.id := by
  have hhead : ∀ {k : Node}, '\n' ∉ k.kind.name.toList → k.label = .ok l →
      l.toList.takeWhile (· ≠ '\n') = k.kind.name.toList ++ '_' :: numeral k.id := by
    intro k hk hl
    obtain ⟨rest, hrest⟩ := toList_label hl
    rw [hrest]
    refine takeWhile_stop (fun c hc => ?_) (by simp)
    rcases mem_append.mp hc with hc | hc
    · exact decide_eq_true fun heq => hk (heq ▸ hc)
    · rcases mem_cons.mp hc with rfl | hc
      · rfl
      · exact decide_eq_true (numeral_plain hc).2
  have htail : ∀ k : Node, (k.kind.name.toList ++ '_' :: numeral k.id).reverse.takeWhile (· ≠ '_') = (numeral k.id).reverse := by
    intro k
    rw [reverse_append, reverse_cons, append_assoc]
    exact takeWhile_stop (fun c hc => decide_eq_true (numeral_plain (mem_reverse.mp hc)).1) (by simp)
  have hnumeral : numeral m.id = numeral n.id := by
    rw [← reverse_inj, ← htail m, ← htail n, ← hhead hm h, ← hhead hn h']
  rw [← integer_numeral m.id, hnumeral, integer_numeral]

end Labels

namespace Node

mutual

def links : Node → List (Node × Node)
  | mk kind value id children => linksFrom (mk kind value id children) children

def linksFrom (parent : Node) : List Node → List (Node × Node)
  | [] => []
  | n :: ns => (parent, n) :: (links n ++ linksFrom parent ns)

end

end Node

section Canvas

variable {γ : Type} {nodes : γ → List String} {joined : γ → String → String → Prop}

/-- What drawing asks of a graph: its nodes stand in the order in which they came, and two of them are joined iff an edge
was added between them. -/
structure Canvas.Lawful (c : Canvas γ) (nodes : γ → List String) (joined : γ → String → String → Prop) : Prop where
  nodes_blank : nodes c.blank = []
  nodes_addNode : ∀ g a, nodes (c.addNode g a) = if a ∈ nodes g then nodes g else nodes g ++ [a]
  nodes_addEdge : ∀ g a b, nodes (c.addEdge g a b) = nodes (c.addNode (c.addNode g a) b)
  not_joined_blank : ∀ a b, ¬ joined c.blank a b
  joined_addNode : ∀ g l a b, joined (c.addNode g l) a b ↔ joined g a b
  joined_addEdge : ∀ g a b p q, joined (c.addEdge g a b) p q ↔ joined g p q ∨ (p = a ∧ q = b) ∨ (p = b ∧ q = a)

def Graph.Joined (g : Graph) (a b : String) : Prop :=
  (a, b) ∈ g.edges ∨ (b, a) ∈ g.edges

lemma Graph.lawful_canvas : canvas.Lawful Graph.nodes Joined := by
  have hedges : ∀ (g : Graph) (a : String), (g.addNode a).edges = g.edges := by
    intro g a
    unfold addNode
    split <;> rfl
  have hnodes : ∀ (g : Graph) (a b : String), (g.addEdge a b).nodes = ((g.addNode a).addNode b).nodes := by
    intro g a b
    simp only [addEdge]
    split <;> split <;> rfl
  refine ⟨rfl, fun g a => ?_, hnodes, fun a b h => ?_, fun g l a b => ?_, fun g a b p q => ?_⟩
  · simp only [canvas, addNode, contains_iff_mem]
    split <;> rfl
  · exact h.elim not_mem_nil not_mem_nil
  · simp only [canvas, Joined, hedges]
  · simp only [canvas, Joined, addEdge, hedges]
    split <;> split <;> simp_all <;> grind

/-- A drawing with these edges and with nodes at these places, in this order. -/
structure Shows (nodes : γ → List String) (joined : γ → String → String → Prop) (g : Drawing γ ℚ)
    (edges : List (String × String)) (places : List (String × (ℚ × ℚ))) : Prop where
  nodes : nodes g.graph = places.map Prod.fst
  joined : ∀ a b, joined g.graph a b ↔ (a, b) ∈ edges ∨ (b, a) ∈ edges
  positions : g.positions = ⟨places⟩

variable {c : Canvas γ} {g : Drawing γ ℚ} {edges : List (String × String)} {places : List (String × (ℚ × ℚ))}
  (hc : c.Lawful nodes joined) {l : String} {p : ℚ × ℚ}

lemma Shows.contains_iff (h : Shows nodes joined g edges places) :
    g.positions.contains l = true ↔ l ∈ places.map Prod.fst := by
  rw [Registry.contains_iff_mem_keys, h.positions, Registry.keys]

lemma Shows.insert (h : Shows nodes joined g edges places) (hl : l ∉ places.map Prod.fst) :
    g.positions.insert l p = ⟨places ++ [(l, p)]⟩ := by
  rw [Registry.insert, if_neg (mt h.contains_iff.mp hl), h.positions]

include hc

lemma Shows.root : Shows nodes joined ⟨c.addNode c.blank l, Registry.insert {} l p⟩ [] [(l, p)] := by
  refine ⟨?_, fun a b => ?_, rfl⟩
  · rw [hc.nodes_addNode, hc.nodes_blank]
    rfl
  · rw [hc.joined_addNode]
    simp [hc.not_joined_blank]

lemma Shows.addEdge (h : Shows nodes joined g edges places) {parent : String} (hparent : parent ∈ places.map Prod.fst)
    (hl : l ∉ places.map Prod.fst) : Shows nodes joined ⟨c.addEdge g.graph parent l, g.positions.insert l p⟩
      (edges ++ [(parent, l)]) (places ++ [(l, p)]) := by
  refine ⟨?_, fun a b => ?_, h.insert hl⟩
  · rw [hc.nodes_addEdge, hc.nodes_addNode, hc.nodes_addNode, h.nodes, if_pos hparent, if_neg hl, map_append]
    rfl
  · rw [hc.joined_addEdge, h.joined]
    grind

end Canvas

section Sweep

variable {label : Node → String} {s : Spacing ℚ} {level x : ℚ} {n : Node}

def spots (label : Node → String) (s : Spacing ℚ) (level x : ℚ) : List (Nat × Node) → List (String × (ℚ × ℚ))
  | [] => []
  | (d, n) :: rest => (label n, x, 1 - (level + d) * s.gap) :: spots label s level (x + s.sibling / 2) rest

lemma spots_append (ps qs : List (Nat × Node)) : spots label s level x (ps ++ qs) =
    spots label s level x ps ++ spots label s level (x + ps.length * (s.sibling / 2)) qs := by
  induction ps generalizing x with
  | nil => simp [spots]
  | cons p ps ih =>
    have hplace : x + s.sibling / 2 + ps.length * (s.sibling / 2) = x + (ps.length + 1 : ℕ) * (s.sibling / 2) := by
      push_cast
      ring
    rw [cons_append, spots, spots, ih, cons_append, length_cons, hplace]

lemma spots_getElem? {ps : List (Nat × Node)} {k d : Nat} (h : ps[k]? = some (d, n)) :
    (spots label s level x ps)[k]? = some (label n, x + k * s.sibling / 2, 1 - (level + d) * s.gap) := by
  induction ps generalizing x k with
  | nil => cases h
  | cons p ps ih =>
    cases k with
    | zero =>
      cases h
      simp [spots]
    | succ k =>
      rw [spots, getElem?_cons_succ, ih h]
      congr 3
      push_cast
      ring

lemma map_fst_spots (ps : List (Nat × Node)) :
    (spots label s level x ps).map Prod.fst = ps.map fun p => label p.2 := by
  induction ps generalizing x with
  | nil => rfl
  | cons p ps ih => rw [spots, map_cons, map_cons, ih]

structure Undrawn (label : Node → String) (places : List (String × (ℚ × ℚ))) (ps : List (Nat × Node)) : Prop where
  written : ∀ p ∈ ps, p.2.label = .ok (label p.2)
  nodup : (places.map Prod.fst ++ ps.map fun p => label p.2).Nodup

namespace Undrawn

variable {ps qs : List (Nat × Node)} {places drawn : List (String × (ℚ × ℚ))}

lemma left (h : Undrawn label places (ps ++ qs)) : Undrawn label places ps := by
  obtain ⟨hlabel, hnodup⟩ := h
  rw [map_append, ← append_assoc] at hnodup
  exact ⟨fun p hp => hlabel p (mem_append_left _ hp), hnodup.of_append_left⟩

lemma extend (h : Undrawn label places (ps ++ qs)) (hdrawn : drawn.map Prod.fst = ps.map fun p => label p.2) :
    Undrawn label (places ++ drawn) qs := by
  obtain ⟨hlabel, hnodup⟩ := h
  refine ⟨fun p hp => hlabel p (mem_append_right _ hp), ?_⟩
  rwa [map_append, hdrawn, append_assoc, ← map_append]

lemma notMem {p : Nat × Node} (h : Undrawn label places (p :: ps)) : label p.2 ∉ places.map Prod.fst :=
  fun hmem => disjoint_of_nodup_append h.nodup hmem mem_cons_self

end Undrawn

def edgeOf (label : Node → String) (e : Node × Node) : String × String :=
  (label e.1, label e.2)

section

variable {γ : Type} {c : Canvas γ} {nodes : γ → List String} {joined : γ → String → String → Prop}

mutual

lemma drawTree_shows (hc : c.Lawful nodes joined) (s : Spacing ℚ) (level : ℚ) : ∀ (n : Node) (d : Nat) (x : ℚ)
    {g : Drawing γ ℚ} {edges : List (String × String)} {places : List (String × (ℚ × ℚ))}, Shows nodes joined g edges places →
    n.label = .ok (label n) → label n ∈ places.map Prod.fst → Undrawn label places (Node.walkAll (d + 1) n.children) →
    ∃ g', drawTree c id s (level + d) x g n =
        .ok (g', x + ((Node.walkAll (d + 1) n.children).length - 1) * (s.sibling / 2)) ∧
      Shows nodes joined g' (edges ++ n.links.map (edgeOf label))
        (places ++ spots label s level (x + s.sibling / 2) (Node.walkAll (d + 1) n.children))
  | .mk k v i cs => by
    intro d x g edges places hg hlabel hn hcs
    have hfirst : x - s.sibling / 2 + s.sibling = x + s.sibling / 2 := by ring
    have hlast : x - s.sibling / 2 + (Node.walkAll (d + 1) cs).length * (s.sibling / 2) =
        x + ((Node.walkAll (d + 1) cs).length - 1) * (s.sibling / 2) := by ring
    obtain ⟨g', hdraw, hshows⟩ := drawChildren_shows hc s level cs d (.mk k v i cs) (x - s.sibling / 2) hg hn hcs
    rw [hfirst] at hshows
    rw [hlast] at hdraw
    refine ⟨g', ?_, by rwa [Node.links, Node.children]⟩
    rw [drawTree, hlabel]
    exact (congrArg (drawChildren c id s (level + d) _ _ · cs) (if_pos (hg.contains_iff.mpr hn))).trans hdraw

lemma drawChildren_shows (hc : c.Lawful nodes joined) (s : Spacing ℚ) (level : ℚ) : ∀ (ns : List Node) (d : Nat)
    (parent : Node) (x : ℚ) {g : Drawing γ ℚ} {edges : List (String × String)} {places : List (String × (ℚ × ℚ))},
    Shows nodes joined g edges places → label parent ∈ places.map Prod.fst →
    Undrawn label places (Node.walkAll (d + 1) ns) →
    ∃ g', drawChildren c id s (level + d) (label parent) x g ns =
        .ok (g', x + (Node.walkAll (d + 1) ns).length * (s.sibling / 2)) ∧
      Shows nodes joined g' (edges ++ (Node.linksFrom parent ns).map (edgeOf label))
        (places ++ spots label s level (x + s.sibling) (Node.walkAll (d + 1) ns))
  | [] => by
    intro d parent x g edges places hg _ _
    refine ⟨g, by simp [drawChildren, Node.walkAll], ?_⟩
    simpa [Node.linksFrom, Node.walkAll, spots] using hg
  | n :: ns => by
    intro d parent x g edges places hg hparent hns
    have hlevel : level + d + 1 = level + (d + 1 : ℕ) := by
      push_cast
      ring
    have hwalk : Node.walkAll (d + 1) (n :: ns) =
        [(d + 1, n)] ++ (Node.walkAll (d + 1 + 1) n.children ++ Node.walkAll (d + 1) ns) := by
      rw [Node.walkAll, Node.walk_eq]
      rfl
    rw [hwalk] at hns ⊢
    have hn : n.label = .ok (label n) := hns.written (d + 1, n) mem_cons_self
    -- The child is there before its own children are drawn, and all of these before its siblings.
    have hg₁ := hg.addEdge hc hparent hns.notMem (p := (x + s.sibling, 1 - (level + (d + 1 : ℕ)) * s.gap))
    have hns₁ : Undrawn label (places ++ [(label n, x + s.sibling, 1 - (level + (d + 1 : ℕ)) * s.gap)]) _ := hns.extend rfl
    obtain ⟨g₂, htree, hg₂⟩ := drawTree_shows hc s level n (d + 1) (x + s.sibling) hg₁ hn (by simp) hns₁.left
    obtain ⟨g₃, hrest, hg₃⟩ := drawChildren_shows hc s level ns d parent
      (x + s.sibling + ((Node.walkAll (d + 1 + 1) n.children).length - 1) * (s.sibling / 2)) hg₂
      (by simp only [map_append, mem_append, hparent, true_or]) (hns₁.extend (map_fst_spots _))
    have hfirst : x + s.sibling + ((Node.walkAll (d + 1 + 1) n.children).length - 1) * (s.sibling / 2) + s.sibling =
        x + s.sibling + s.sibling / 2 + (Node.walkAll (d + 1 + 1) n.children).length * (s.sibling / 2) := by ring
    have hlast : x + s.sibling + ((Node.walkAll (d + 1 + 1) n.children).length - 1) * (s.sibling / 2) +
        (Node.walkAll (d + 1) ns).length * (s.sibling / 2) = x + ([(d + 1, n)] ++ (Node.walkAll (d + 1 + 1) n.children ++
          Node.walkAll (d + 1) ns)).length * (s.sibling / 2) := by
      simp only [length_append, length_singleton]
      push_cast
      ring
    rw [hlast] at hrest
    rw [hfirst] at hg₃
    refine ⟨g₃, ?_, ?_⟩
    · rw [drawChildren, hn, hlevel]
      exact (congrArg (fun drawn : Except Fault (Drawing γ ℚ × ℚ) =>
        drawn >>= fun r => drawChildren c id s (level + d) (label parent) r.2 r.1 ns) htree).trans hrest
    · rw [singleton_append, spots, spots_append, Node.linksFrom, map_cons, map_append]
      simpa only [append_assoc, singleton_append, cons_append, nil_append, edgeOf] using hg₃

end

lemma draw_shows (hc : c.Lawful nodes joined) (s : Spacing ℚ) (level x : ℚ) (hlabel : ∀ m ∈ n.nodes, m.label = .ok (label m)) (h : (n.nodes.map label).Nodup) :
    ∃ g, draw c id s level x (some n) = .ok (g, x + (n.nodes.length - 2) * s.sibling / 2) ∧
      Shows nodes joined g (n.links.map (edgeOf label)) (spots label s level x (n.walk 0)) := by
  have hwalk : n.walk 0 = [(0, n)] ++ Node.walkAll (0 + 1) n.children := Node.walk_eq 0 n
  have hundrawn : Undrawn label [] (n.walk 0) := by
    refine ⟨fun p hp => hlabel _ (mem_map_of_mem hp), ?_⟩
    rwa [Node.nodes, List.map_map] at h
  rw [hwalk] at hundrawn
  have hn : n.label = .ok (label n) := hundrawn.written (0, n) mem_cons_self
  have hzero : level + (0 : ℕ) = level := by simp
  have hroot := Shows.root hc (l := label n) (p := (x, 1 - level * s.gap))
  obtain ⟨g, hdraw, hshows⟩ := drawTree_shows hc s level n 0 x hroot hn (by simp) (hundrawn.extend rfl)
  refine ⟨g, ?_, by rwa [hwalk, singleton_append, spots, hzero]⟩
  have hlast : x + ((Node.walkAll (0 + 1) n.children).length - 1 : ℚ) * (s.sibling / 2) =
      x + (n.nodes.length - 2) * s.sibling / 2 := by
    rw [Node.nodes, hwalk, length_map, length_append, length_singleton]
    push_cast
    ring
  rw [hlast] at hdraw
  rw [draw, ← hdraw, hzero]
  cases n
  rw [drawTree, drawTree, hn]
  exact congrArg (drawChildren c id s level _ _ · _) (if_pos (hroot.contains_iff.mpr (by simp))).symm

end

lemma nodup_spots (hs : s.sibling ≠ 0) (ps : List (Nat × Node)) : ((spots label s level x ps).map Prod.snd).Nodup := by
  have hplace : ∀ (ps : List (Nat × Node)) (x : ℚ), ∀ q ∈ (spots label s level x ps).map Prod.snd,
      ∃ k : ℕ, q.1 = x + k * (s.sibling / 2) := by
    intro ps
    induction ps with
    | nil => exact fun _ => forall_mem_nil _
    | cons p ps ih =>
      intro x
      refine forall_mem_cons.mpr ⟨⟨0, by simp⟩, fun q hq => ?_⟩
      obtain ⟨k, hk⟩ := ih _ q hq
      exact ⟨k + 1, by rw [hk]; push_cast; ring⟩
  induction ps generalizing x with
  | nil => exact nodup_nil
  | cons p ps ih =>
    refine nodup_cons.mpr ⟨fun hmem => ?_, ih⟩
    obtain ⟨k, hk⟩ := hplace ps _ _ hmem
    have hzero : ((k : ℚ) + 1) * s.sibling = 0 := by linear_combination (-2) * hk
    exact hs ((mul_eq_zero.mp hzero).resolve_left (by positivity))

end Sweep

/-- A tree whose nodes have different numbers, kinds of one line and values that can be written is drawn in one sweep, on
every graph that keeps what is added to it. -/
theorem drawing_swept {γ : Type} {c : Canvas γ} {nodes : γ → List String} {joined : γ → String → String → Prop}
    (hc : c.Lawful nodes joined) (s : Spacing ℚ) (level x : ℚ) (n : Node) (hids : (n.nodes.map Node.id).Nodup)
    (hkinds : ∀ m ∈ n.nodes, '\n' ∉ m.kind.name.toList) {label : Node → String}
    (hlabel : ∀ m ∈ n.nodes, m.label = .ok (label m)) :
    ∃ g, draw c id s level x (some n) = .ok (g, x + (n.nodes.length - 2) * s.sibling / 2) ∧
      (n.nodes.map label).Nodup ∧ nodes g.graph = n.nodes.map label ∧
      (∀ a b, joined g.graph a b ↔ (a, b) ∈ n.links.map (edgeOf label) ∨ (b, a) ∈ n.links.map (edgeOf label)) ∧
      g.positions.keys = n.nodes.map label ∧
      (∀ (k d : ℕ) (m : Node), (n.walk 0)[k]? = some (d, m) →
        g.positions.entries[k]? = some (label m, x + k * s.sibling / 2, 1 - (level + d) * s.gap)) ∧
      (s.sibling ≠ 0 → g.positions.values.Nodup) := by
  have hlabels : (n.nodes.map label).Nodup := by
    refine (nodup_map_iff_inj_on hids.of_map).mpr fun a ha b hb hab => ?_
    have hb' := hlabel b hb
    rw [← hab] at hb'
    exact inj_on_of_nodup_map hids ha hb (Node.id_of_label (hkinds a ha) (hkinds b hb) (hlabel a ha) hb')
  have hkeys : (spots label s level x (n.walk 0)).map Prod.fst = n.nodes.map label := by
    rw [map_fst_spots, Node.nodes, List.map_map]
    rfl
  obtain ⟨g, hdraw, hnodes, hjoined, hpositions⟩ := draw_shows hc s level x hlabel hlabels
  refine ⟨g, hdraw, hlabels, hnodes.trans hkeys, hjoined, ?_, fun k d m hk => ?_, fun hs => ?_⟩
  · rwa [hpositions]
  · rw [hpositions]
    exact spots_getElem? hk
  · rw [hpositions]
    exact nodup_spots hs _

def sumLabel (m : Node) : String :=
  m.kind.name ++ "_" ++ Text.decimal m.id ++ "\n[" ++ m.value.written ++ "]"

theorem drawing_swept_sumTree : (sumTree.nodes.map Node.id).Nodup ∧
    ∃ g, draw Graph.canvas (id : ℚ → ℚ) ⟨10, 2⟩ 0 3 (some sumTree) = .ok (g, 18) ∧
      g.graph.nodes = ["PLUS_4\n[None]", "NUMBER_0\n[1]", "MUL_3\n[None]", "NUMBER_1\n[2]", "NUMBER_2\n[3]"] ∧
      g.positions.entries[3]? = some ("NUMBER_1\n[2]", (18 : ℚ), (-3 : ℚ)) := by
  have hids : (sumTree.nodes.map Node.id).Nodup := by decide +kernel
  have hlabels : ∀ m ∈ sumTree.nodes, m.label = .ok (sumLabel m) := by decide +kernel
  obtain ⟨g, hdraw, -, hnodes, -, -, hplace, -⟩ := drawing_swept Graph.lawful_canvas ⟨10, 2⟩ 0 3 sumTree hids
    (by decide +kernel) hlabels
  have hlabel : sumLabel (.mk .number (.int 2) 1 []) = "NUMBER_1\n[2]" := by decide +kernel
  have hend : (3 : ℚ) + (sumTree.nodes.length - 2) * 10 / 2 = 18 := by
    norm_num [sumTree, Node.nodes, Node.walk, Node.walkAll]
  refine ⟨hids, g, by rw [hdraw, hend], hnodes.trans (by decide +kernel), ?_⟩
  rw [hplace 3 2 (.mk .number (.int 2) 1 []) rfl, hlabel]
  norm_num

def twins : Node :=
  .mk (.other "A") (.text "x]_2\n[y") 1 [.mk (.other "A_1\n[x]") (.text "y") 2 []]

theorem twins_drawn_once : (twins.nodes.map Node.id).Nodup ∧ twins.nodes.length = 2 ∧
    (draw Graph.canvas (id : ℚ → ℚ) ⟨10, 2 / 5⟩ 0 (1 / 2) (some twins)).toOption.map (fun r => r.1.graph.nodes) =
      some ["A_1\n[x]_2\n[y]"] := by
  decide +kernel

end LispKit.Lisp
