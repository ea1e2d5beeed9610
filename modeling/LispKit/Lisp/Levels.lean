import LispKit.Lisp.Node

/-! The levels of a tree, from the root downwards. -/

namespace LispKit.Lisp.Node

mutual

def size : Node → Nat
  | mk _ _ _ children => sizeAll children + 1

def sizeAll : List Node → Nat
  | [] => 0
  | n :: ns => size n + sizeAll ns

end

def takeFront : Nat → List Node → List Node × List Node
  | 0, queue => ([], queue)
  | _ + 1, [] => ([], [])
  | k + 1, n :: queue =>
    let (level, rest) := takeFront k (queue ++ n.children)
    (n :: level, rest)

theorem takeFront_append (level rest : List Node) :
    takeFront level.length (level ++ rest) = (level, rest ++ level.flatMap children) := by
  induction level generalizing rest with
  | nil => simp [takeFront]
  | cons n level ih =>
    rw [List.length_cons, List.cons_append, takeFront, List.append_assoc, ih, List.flatMap_cons,
      List.append_assoc]

theorem takeFront_length (level : List Node) : takeFront level.length level = (level, level.flatMap children) := by
  simpa using takeFront_append level []

theorem sizeAll_append (ms ns : List Node) : sizeAll (ms ++ ns) = sizeAll ms + sizeAll ns := by
  induction ms with
  | nil => simp [sizeAll]
  | cons m ms ih => simp only [List.cons_append, sizeAll, ih]; omega

theorem sizeAll_flatMap_children (level : List Node) :
    sizeAll (level.flatMap children) + level.length = sizeAll level := by
  induction level with
  | nil => rfl
  | cons n level ih =>
    obtain ⟨kind, value, id, cs⟩ := n
    simp only [List.flatMap_cons, children, sizeAll_append, List.length_cons, sizeAll, size]
    omega

theorem sizeAll_takeFront_lt (n : Node) (queue : List Node) :
    sizeAll (takeFront (queue.length + 1) (n :: queue)).2 < sizeAll (n :: queue) := by
  have htaken := takeFront_length (n :: queue)
  have hsize := sizeAll_flatMap_children (n :: queue)
  rw [List.length_cons] at htaken hsize
  rw [htaken]
  dsimp only
  omega

/-- The nodes that stand in a queue are a level; taking them off leaves the next one. -/
def levelsFrom : List Node → List (List Node)
  | [] => []
  | n :: queue =>
    let taken := takeFront (queue.length + 1) (n :: queue)
    taken.1 :: levelsFrom taken.2
termination_by queue => sizeAll queue
decreasing_by exact sizeAll_takeFront_lt n queue

theorem levelsFrom_cons (n : Node) (queue : List Node) :
    levelsFrom (n :: queue) = (n :: queue) :: levelsFrom ((n :: queue).flatMap children) := by
  have htaken := takeFront_length (n :: queue)
  rw [List.length_cons] at htaken
  rw [levelsFrom, htaken]

theorem levels_induction {motive : List Node → Prop} (nil : motive [])
    (cons : ∀ n queue, motive ((n :: queue).flatMap children) → motive (n :: queue))
    (queue : List Node) : motive queue := by
  induction queue using levelsFrom.induct with
  | case1 => exact nil
  | case2 n queue taken ih =>
    have htaken := takeFront_length (n :: queue)
    rw [List.length_cons] at htaken
    simp only [taken, htaken] at ih
    exact cons n queue ih

def levels (n : Node) : List (List Node) :=
  levelsFrom [n]

end LispKit.Lisp.Node
