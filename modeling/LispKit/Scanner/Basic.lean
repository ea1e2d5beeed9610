import LispKit.Pattern.Reader
import LispKit.Registry
import LispKit.Scanner.Name
import LispKit.Scanner.Token

/-! Scanners: rules by state, the current state, and the input with the place reached in it. -/

namespace LispKit

/-- What a match of a group leads to. -/
inductive Scanner.Target (V σ : Type) where
  /-- The matched text is left out. -/
  | ignored
  | token (type : String)
  | handled (type : String) (handler : Scanner.Handler V σ)

/-- A pattern of several rules, and for the number of each rule's group its target. -/
structure Scanner.Master (V σ : Type) where
  text : String
  compiled : Pattern.Compiled
  targets : List (Nat × Scanner.Target V σ)
  names : List String

/-- The target of a match, given the group that it closed last. Groups that are not rules have none. -/
def Scanner.Master.target {V σ : Type} (m : Scanner.Master V σ) (group : Option Nat) :
    Except Fault (Scanner.Target V σ) :=
  match group with
  | none => .error (.notIndex "NoneType")
  | some n =>
    match m.targets.lookup n with
    | some t => .ok t
    | none =>
      if m.compiled.names.any fun (_, k) => n ≤ k then .error (.unpacked "NoneType")
      else .error .listRange

/-- What a scanner consults, by state. -/
structure Scanner.Rules (V σ : Type) where
  masters : Registry String (List (Scanner.Master V σ))
  ignored : Registry String String
  onError : Registry String (Option (Scanner.Handler V σ))
  onEnd : Registry String (Scanner.Handler V σ)
  literals : String

/-- A scanner. What it consults in its current state is fixed when that state is entered. -/
structure Scanner (V σ : Type) where
  rules : Scanner.Rules V σ
  state : String
  masters : List (Scanner.Master V σ)
  ignored : String
  onError : Option (Scanner.Handler V σ)
  onEnd : Option (Scanner.Handler V σ)
  stack : List String := []
  text : Option (List Char) := none
  position : Int := 0
  length : Nat := 0
  line : Int := 1

namespace Scanner

variable {V σ : Type}

inductive ScanError where
  | fault (f : Fault)
  | undefinedState (name : String)
  | illegalCharacter (c : Char) (index : Int)
  /-- The error function has not moved on. -/
  | stuck (c : Char)
  | noInput
  deriving DecidableEq

def ScanError.message : ScanError → String
  | fault f => f.message
  | undefinedState name => "Undefined state " ++ Text.quoted name
  | illegalCharacter c index =>
    "Illegal character " ++ Text.quoted (String.singleton c) ++ " at index " ++ Text.decimal index
  | stuck c => "Scanning error. Illegal character " ++ Text.quoted (String.singleton c)
  | noInput => "No input string given with input()"

def input (sc : Scanner V σ) (text : List Char) : Scanner V σ :=
  { sc with text := some text, position := 0, length := text.length }

def begin (sc : Scanner V σ) (state : String) : Except ScanError (Scanner V σ) :=
  match sc.rules.masters.get? state with
  | none => .error (.undefinedState state)
  | some masters => .ok { sc with
      state := state
      masters := masters
      ignored := sc.rules.ignored.getD state ""
      onError := sc.rules.onError.getD state none
      onEnd := sc.rules.onEnd.get? state }

def push (sc : Scanner V σ) (state : String) : Except ScanError Unit × Scanner V σ :=
  let saved := { sc with stack := sc.state :: sc.stack }
  match saved.begin state with
  | .ok sc => (.ok (), sc)
  | .error e => (.error e, saved)

def pop (sc : Scanner V σ) : Except ScanError Unit × Scanner V σ :=
  match sc.stack with
  | [] => (.error (.fault .emptyPop), sc)
  | state :: rest =>
    let dropped := { sc with stack := rest }
    match dropped.begin state with
    | .ok sc => (.ok (), sc)
    | .error e => (.error e, dropped)

def skip (sc : Scanner V σ) (n : Int) : Scanner V σ :=
  { sc with position := sc.position + n }

/-- A copy with its handlers looked up anew, where they are all found again under the names that they have: of the patterns
of a state only the last remains, and every state must have an error handler. -/
def rebound (sc : Scanner V σ) : Except Fault (Scanner V σ) :=
  if sc.rules.onError.values.any Option.isNone then .error (.missingAttribute "NoneType" "__name__")
  else .ok { sc with rules := { sc.rules with
    masters := ⟨sc.rules.masters.entries.map fun (state, ms) => (state, ms.getLast?.toList)⟩ } }

end Scanner

end LispKit
