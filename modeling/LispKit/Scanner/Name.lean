import LispKit.Fault

/-! Rule names: the states that a rule belongs to and the token it makes, from the parts of its name. -/

namespace LispKit.Scanner

def initialState : String := "INITIAL"

structure RuleName where
  states : List String
  token : String

/-- Splits the parts after the first into state names and the rest. The last part is never a state. -/
def splitStates (known : List String) : List String → List String × List String
  | [] => ([], [])
  | [last] => ([], [last])
  | part :: rest =>
    if known.contains part || part = "ANY" then
      let (states, token) := splitStates known rest
      (part :: states, token)
    else ([], part :: rest)

def RuleName.read (name : String) (known : List String) : Except Fault RuleName :=
  match (Text.divide '_' name.toList).map String.ofList with
  | [] | [_] => .error (.unbound "i")
  | _ :: parts =>
    let (states, token) := splitStates known parts
    let states := if states.isEmpty then [initialState] else states
    .ok ⟨if states.contains "ANY" then known else states, "_".intercalate token⟩

end LispKit.Scanner
