import LispKit.Lisp.Node
import LispKit.Registry

/-! Stores: what a program has defined and is in the middle of. -/

namespace LispKit.Lisp

/-- Where a variable is looked up. -/
inductive Scope where
  | global
  | anonymous
  | defined
  | other (name : String)
  deriving DecidableEq

namespace Scope

def name : Scope → String
  | global => "NORMAL"
  | anonymous => "FUNCTION_ANONYMOUS"
  | defined => "FUNCTION_DEFINED"
  | other s => s

def ofName : String → Scope
  | "NORMAL" => global
  | "FUNCTION_ANONYMOUS" => anonymous
  | "FUNCTION_DEFINED" => defined
  | s => other s

end Scope

/-- A function with the parameters, arguments and bindings of its last call. The caller is named by its
place in the store. -/
structure Frame where
  name : Value
  parameters : List Value := []
  arguments : List Value := []
  bindings : Registry Key Value := {}
  function : Option Node := none
  caller : Option Nat := none

def anonymousName : Value := .text "_"

def Frame.isAnonymous (f : Frame) : Bool :=
  f.name.same anonymousName

/-- What a name is bound to in a defined function or, as given, in its caller: with one parameter the
function is asked first, with several its caller, and without parameters neither. -/
def Frame.binding? (f : Frame) (callers : Option Value) (name : Value) : Option Value :=
  match f.parameters.length with
  | 0 => none
  | 1 => (f.bindings.get? ⟨name⟩).or callers
  | _ => callers.or (f.bindings.get? ⟨name⟩)

/-- A call that has a known result. -/
structure Call where
  name : Value
  arguments : List Value

def sameAll : List Value → List Value → Bool
  | [], [] => true
  | x :: xs, y :: ys => x.same y && sameAll xs ys
  | _, _ => false

instance : BEq Call := ⟨fun a b => a.name.same b.name && sameAll a.arguments b.arguments⟩

structure Store where
  operators : List Operator := []
  scopes : List Scope := []
  frames : Array Frame := #[]
  calls : List Nat := []
  globals : Registry Key Value := {}
  functions : Registry Key Nat := {}
  memo : Registry Call Value := {}
  out : String := ""

instance : Inhabited Store := ⟨{}⟩

namespace Store

def print (s : Store) (line : String) : Store :=
  { s with out := s.out ++ line ++ "\n" }

def frame? (s : Store) (i : Nat) : Option Frame :=
  s.frames[i]?

/-- The innermost function being called with its place, if it has the name. -/
def current? (s : Store) (name : Value) : Option (Nat × Frame) :=
  match s.calls with
  | [] => none
  | i :: _ =>
    match s.frame? i with
    | some f => if name.same f.name then some (i, f) else none
    | none => none

/-- What the caller of a function, if it has one, binds a name to. -/
def callerBinding (s : Store) (f : Frame) (name : Value) : Option Value :=
  (f.caller.bind s.frame?).bind fun c => c.bindings.get? ⟨name⟩

def modifyFrame (s : Store) (i : Nat) (f : Frame → Frame) : Store :=
  { s with frames := s.frames.modify i f }

def allocate (s : Store) (f : Frame) : Nat × Store :=
  (s.frames.size, { s with frames := s.frames.push f })

def pushOperator (s : Store) (o : Operator) : Store :=
  { s with operators := o :: s.operators }

def pushScope (s : Store) (c : Scope) : Store :=
  { s with scopes := c :: s.scopes }

def pushCall (s : Store) (i : Nat) : Store :=
  { s with calls := i :: s.calls }

theorem lt_of_frame? {s : Store} {i : Nat} {f : Frame} (h : s.frame? i = some f) : i < s.frames.size :=
  (Array.getElem?_eq_some_iff.mp h).1

theorem exists_frame {s : Store} {i : Nat} (h : i < s.frames.size) : ∃ f, s.frame? i = some f :=
  ⟨_, Array.getElem?_eq_getElem h⟩

theorem frame?_modifyFrame (s : Store) (i j : Nat) (F : Frame → Frame) :
    (s.modifyFrame i F).frame? j = if i = j then (s.frame? j).map F else s.frame? j :=
  Array.getElem?_modify

theorem modifyFrame_congr {s : Store} {i : Nat} {F G : Frame → Frame}
    (h : ∀ f, s.frame? i = some f → F f = G f) : s.modifyFrame i F = s.modifyFrame i G := by
  have he : s.frames.modify i F = s.frames.modify i G := by
    apply Array.ext_getElem?
    intro j
    rw [Array.getElem?_modify, Array.getElem?_modify]
    split
    · rename_i hij
      subst hij
      cases hf : s.frames[i]? with
      | none => rfl
      | some f => rw [Option.map_some, Option.map_some, h f hf]
    · rfl
  simp only [modifyFrame, he]

theorem modifyFrame_modifyFrame (s : Store) (i : Nat) (F G : Frame → Frame) :
    (s.modifyFrame i F).modifyFrame i G = s.modifyFrame i fun f => G (F f) := by
  have he : (s.frames.modify i F).modify i G = s.frames.modify i fun f => G (F f) := by
    apply Array.ext_getElem?
    intro j
    simp only [Array.getElem?_modify]
    split
    · simp [Function.comp_def]
    · rfl
  simp only [modifyFrame, he]

theorem modifyFrame_self (s : Store) (i : Nat) : (s.modifyFrame i fun f => f) = s := by
  have he : (s.frames.modify i fun f => f) = s.frames := by
    apply Array.ext_getElem?
    intro j
    simp [Array.getElem?_modify]
  simp only [modifyFrame, he]

end Store

end LispKit.Lisp
