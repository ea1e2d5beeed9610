import LispKit.Registry

/-! Sets along a relation: for every node the union of given sets over all nodes that it reaches.

Each node owns a slot, a numbered cell that holds a list. The nodes of a component come to own one
slot together, so that what is added for one of them is added for all. -/

namespace LispKit

structure Slots (ν α : Type) where
  owner : Registry ν Nat
  cells : List (List α)

namespace Slots

variable {ν α : Type} [BEq ν] [BEq α]

def get (s : Slots ν α) (x : ν) : List α :=
  match s.owner.get? x with
  | none => []
  | some cell => s.cells[cell]?.getD []

def ofLists (nodes : List ν) (value : ν → List α) : Slots ν α :=
  ⟨⟨nodes.zipIdx⟩, nodes.map value⟩

end Slots

namespace Digraph

inductive Mark where
  | fresh
  | active (depth : Nat)
  | closed
  deriving DecidableEq

def Mark.lower : Mark → Mark → Mark
  | .closed, m => m
  | m, .closed => m
  | .fresh, _ => .fresh
  | _, .fresh => .fresh
  | .active d, .active e => .active (min d e)

structure State (ν α : Type) where
  marks : Registry ν Mark
  stack : List ν
  owner : Registry ν Nat
  cells : List (List α)

variable {ν α : Type} [BEq ν] [BEq α]

def State.mark (s : State ν α) (x : ν) : Mark :=
  s.marks.getD x .fresh

def State.absorb (s : State ν α) (x y : ν) : State ν α :=
  match s.owner.get? x, s.owner.get? y with
  | some cell, some other =>
    let source := s.cells[other]?.getD []
    let target := s.cells[cell]?.getD []
    let joined := source.foldl (fun seen a => if seen.contains a then seen else seen ++ [a]) target
    { s with cells := s.cells.set cell joined }
  | _, _ => s

def State.close (x : ν) (cell : Nat) : List ν → State ν α → State ν α
  | [], s => { s with stack := [] }
  | y :: below, s =>
    let s := { s with marks := s.marks.insert y .closed, owner := s.owner.insert y cell }
    if y == x then { s with stack := below } else State.close x cell below s

/-- Treats a node and, before it is finished, all nodes that it leads to. The first argument bounds
the depth by the number of nodes that are left. -/
def traverse (next : ν → List ν) (given : ν → Nat) : Nat → ν → State ν α → State ν α
  | 0, _, s => s
  | n + 1, x, s =>
    let depth := s.stack.length + 1
    let s : State ν α := { s with
      stack := x :: s.stack
      marks := s.marks.insert x (.active depth)
      owner := s.owner.insert x (given x) }
    let s := (next x).foldl (fun s y =>
      let s := if s.mark y = .fresh then traverse next given n y s else s
      let s := { s with marks := s.marks.insert x ((s.mark x).lower (s.mark y)) }
      s.absorb x y) s
    if s.mark x = .active depth then State.close x (s.owner.getD x 0) s.stack s else s

def solve (nodes : List ν) (next : ν → List ν) (given : Slots ν α) : Slots ν α :=
  let start : State ν α := ⟨⟨nodes.map (·, .fresh)⟩, [], {}, given.cells⟩
  let done := nodes.foldl (fun s x =>
    if s.mark x = .fresh then traverse next (given.owner.getD · 0) (nodes.length + 1) x s else s) start
  ⟨done.owner, done.cells⟩

end Digraph

end LispKit
