/-! Limits: how far a computation may go that need not end. -/

namespace LispKit

structure Limits where
  steps : Nat
  depth : Nat

def Limits.standard : Limits :=
  ⟨Nat.pow 2 62, 1000⟩

end LispKit
