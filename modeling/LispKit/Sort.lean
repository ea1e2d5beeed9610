/-! Sorting: elements that an order does not tell apart keep their places. -/

namespace LispKit

variable {α : Type}

def insertSorted (le : α → α → Bool) (x : α) : List α → List α
  | [] => [x]
  | y :: ys => if le x y then x :: y :: ys else y :: insertSorted le x ys

def sorted (le : α → α → Bool) : List α → List α
  | [] => []
  | x :: xs => insertSorted le x (sorted le xs)

end LispKit
