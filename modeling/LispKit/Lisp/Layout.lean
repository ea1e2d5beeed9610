import LispKit.Lisp.Node
import LispKit.Registry

/-! Drawings of trees: nodes named by labels, edges, and a position for every label. -/

namespace LispKit.Lisp

/-- The operations on graphs that drawing uses. -/
structure Canvas (γ : Type) where
  blank : γ
  addNode : γ → String → γ
  addEdge : γ → String → String → γ

/-- An undirected graph by its nodes and edges, in the order in which they were added. -/
structure Graph where
  nodes : List String := []
  edges : List (String × String) := []

namespace Graph

def addNode (g : Graph) (label : String) : Graph :=
  if g.nodes.contains label then g else { g with nodes := g.nodes ++ [label] }

def addEdge (g : Graph) (a b : String) : Graph :=
  let g := (g.addNode a).addNode b
  let edge := if g.nodes.idxOf a ≤ g.nodes.idxOf b then (a, b) else (b, a)
  if g.edges.contains edge then g else { g with edges := g.edges ++ [edge] }

def canvas : Canvas Graph :=
  ⟨{}, addNode, addEdge⟩

end Graph

/-- A graph whose nodes have positions; positions keep their order. -/
structure Drawing (γ α : Type) where
  graph : γ
  positions : Registry String (α × α) := {}

/-- The label of a node. Its number, which counts the nodes made before it, is never too long to be written. -/
def Node.label (n : Node) : Except Fault String := do
  let v ← n.value.display
  .ok (n.kind.name ++ "_" ++ Text.decimal n.id ++ "\n[" ++ v ++ "]")

structure Spacing (α : Type) where
  sibling : α
  gap : α

section

variable {γ α ι : Type} [Add α] [Sub α] [Mul α] [Div α] [OfNat α 1] [OfNat α 2] [Add ι] [OfNat ι 1]

def height (scale : ι → α) (s : Spacing α) (level : ι) : α :=
  1 - scale level * s.gap

mutual

/-- Draws a tree at a place; returns the place that was reached. A node that has a position keeps it. -/
def drawTree (c : Canvas γ) (scale : ι → α) (s : Spacing α) (level : ι) (x : α) (g : Drawing γ α) :
    Node → Except Fault (Drawing γ α × α)
  | .mk kind value id children => do
    let label ← (Node.mk kind value id children).label
    let g := if g.positions.contains label then g
      else ⟨c.addNode g.graph label, g.positions.insert label (x, height scale s level)⟩
    drawChildren c scale s level label (x - s.sibling / 2) g children

def drawChildren (c : Canvas γ) (scale : ι → α) (s : Spacing α) (level : ι) (parent : String) (x : α)
    (g : Drawing γ α) : List Node → Except Fault (Drawing γ α × α)
  | [] => .ok (g, x)
  | child :: rest => do
    let x := x + s.sibling
    let label ← child.label
    let g := ⟨c.addEdge g.graph parent label, g.positions.insert label (x, height scale s (level + 1))⟩
    let (g, x) ← drawTree c scale s (level + 1) x g child
    drawChildren c scale s level parent x g rest

end

def draw (c : Canvas γ) (scale : ι → α) (s : Spacing α) (level : ι) (x : α) (root : Option Node) :
    Except Fault (Drawing γ α × α) :=
  match root with
  | none => .ok (⟨c.blank, {}⟩, x)
  | some n => drawTree c scale s level x ⟨c.blank, {}⟩ n

end

end LispKit.Lisp
