import LispKit.Lisp.Store

/-! Evaluation of syntax trees. -/

namespace LispKit.Lisp

abbrev Evaluation := ExceptT Fault (StateM Store)

/-- The course of the evaluation of a node: it has ended, or a descendant is to be evaluated in a store
and the rest hangs on its value and on the store that it leaves. -/
inductive Course (α : Type) where
  | done (result : Except Fault α) (store : Store)
  | visit (node : Node) (store : Store) (next : Value → Store → Course α)

namespace Course

variable {α β : Type}

def andThen : Course α → (α → Store → Course β) → Course β
  | done (.ok a) s, f => f a s
  | done (.error e) s, _ => done (.error e) s
  | visit n s next, f => visit n s fun v s => (next v s).andThen f

/-- Follows a course to its end, given how descendants are evaluated. It fails with the first of them
that fails. -/
def run (eval : Node → Store → Except Fault Value × Store) : Course α → Except Fault α × Store
  | done r s => (r, s)
  | visit n s next =>
    match eval n s with
    | (.ok v, s) => (next v s).run eval
    | (.error e, s) => (.error e, s)

end Course

def Eval (α : Type) := Store → Course α

namespace Eval

instance : Monad Eval where
  pure a := fun s => .done (.ok a) s
  bind x f := fun s => (x s).andThen f

instance : MonadStateOf Store Eval where
  get := fun s => .done (.ok s) s
  set s := fun _ => .done (.ok ()) s
  modifyGet f := fun s => .done (.ok (f s).1) (f s).2

def fail {α : Type} (f : Fault) : Eval α :=
  fun s => .done (.error f) s

def visit (n : Node) : Eval Value :=
  fun s => .visit n s fun v s => .done (.ok v) s

def ofExcept {α : Type} (r : Except Fault α) : Eval α :=
  match r with
  | .ok a => pure a
  | .error f => fail f

def child (n : Node) (i : Nat) : Eval Node :=
  match n.children[i]? with
  | some c => pure c
  | none => fail .listRange

def nameOf (n : Node) : Eval Value := do
  let c ← child n 0
  pure c.value

def missing {α : Type} (name : Value) : Eval α := do
  let key ← ofExcept name.write
  fail (.missingKey key)

def lookup (r : Registry Key Value) (name : Value) : Eval Value :=
  match r.get? ⟨name⟩ with
  | some v => pure v
  | none => missing name

def operator : Eval Operator := do
  match (← get).operators with
  | o :: _ => pure o
  | [] => fail .listRange

def popOperator : Eval Unit := do
  match (← get).operators with
  | _ :: rest => modify fun s => { s with operators := rest }
  | [] => fail .emptyPop

def currentCall : Eval Nat := do
  match (← get).calls with
  | i :: _ => pure i
  | [] => fail .listRange

def frameAt (i : Nat) : Eval Frame := do
  match (← get).frame? i with
  | some f => pure f
  | none => fail .listRange

def leaveCall : Eval Unit := do
  match (← get).calls with
  | [] => fail .emptyPop
  | _ :: rest => modify fun s => { s with calls := rest }
  match (← get).scopes with
  | [] => fail .emptyPop
  | _ :: rest => modify fun s => { s with scopes := rest }

def checkSameType (x y : Value) : Eval Unit :=
  if x.sameType y then pure () else fail .typeMismatch

def checkBool : Value → Eval Bool
  | .bool b => pure b
  | _ => fail .typeMismatch

def binary (b : Binary) (n : Node) : Eval Value := do
  modify (·.pushOperator (.binary b))
  let x ← visit (← child n 0)
  let y ← visit (← child n 1)
  checkSameType x y
  let r ← ofExcept (b.combine x y)
  popOperator
  pure r

def negation (n : Node) : Eval Value := do
  modify (·.pushOperator .not)
  let x ← checkBool (← visit (← child n 0))
  popOperator
  pure (.bool !x)

def combined (x y : Value) : Operator → Eval Value
  | .binary b => ofExcept (b.combine x y)
  | .not => return .bool !(← checkBool x)
  | .other _ => pure .nothing

def combineRest (n : Node) (x : Value) : Eval Value := do
  let y ← visit (← child n 1)
  checkSameType x y
  combined x y (← operator)

def operands (n : Node) : Eval Value := do
  let x ← visit (← child n 0)
  match ← operator with
  | .not => return .bool !(← checkBool x)
  | _ => combineRest n x

def printNumber (n : Node) : Eval Value := do
  match ← visit (← child n 0) with
  | .int m =>
    let line ← ofExcept (Value.write (.int m))
    modify (·.print line)
    pure .nothing
  | _ => fail .typeMismatch

def printBool (n : Node) : Eval Value := do
  let b ← checkBool (← visit (← child n 0))
  modify (·.print (if b then "#t" else "#f"))
  pure .nothing

def conditional (n : Node) : Eval Value := do
  if (← visit (← child n 0)).isTrue then visit (← child n 1) else visit (← child n 2)

def test (n : Node) : Eval Value := do
  return .bool (← checkBool (← visit (← child n 0)))

def definition (n : Node) : Eval Value := do
  let target ← child n 0
  match target.kind with
  | .reference =>
    let v ← visit (← child n 1)
    let name ← nameOf target
    modify fun s => { s with globals := s.globals.insert ⟨name⟩ v }
    pure .nothing
  | .functionName =>
    let name ← nameOf target
    let function ← child n 1
    modify fun s =>
      let (i, s) := s.allocate { name := name, function := some function }
      { s with functions := s.functions.insert ⟨name⟩ i }
    pure .nothing
  | _ => pure .nothing

def definedBinding (name : Value) : Eval Value := do
  let f ← frameAt (← currentCall)
  let s ← get
  match f.binding? (s.callerBinding f name) name with
  | some v => pure v
  | none => lookup s.globals name

def lookupIn (name : Value) : Scope → Eval Value
  | .global => do lookup (← get).globals name
  | .anonymous => do
    let f ← frameAt (← currentCall)
    lookup f.bindings name
  | .defined => definedBinding name
  | .other _ => pure .nothing

def reference (n : Node) : Eval Value := do
  let scope := (← get).scopes.head?.getD .global
  let name ← nameOf n
  lookupIn name scope

def bindFrom (i : Nat) : List Value → Nat → Eval Unit
  | [], _ => pure ()
  | p :: rest, k => do
    let f ← frameAt i
    match f.arguments[k]? with
    | none => fail .listRange
    | some v =>
      modify (·.modifyFrame i fun f => { f with bindings := f.bindings.insert ⟨p⟩ v })
      bindFrom i rest (k + 1)

def bind (i : Nat) : Eval Unit := do
  let f ← frameAt i
  bindFrom i f.parameters 0

def functionOf (i : Nat) : Eval Node := do
  match (← frameAt i).function with
  | some n => pure n
  | none => fail (.missingAttribute "NoneType" "type")

def openAnonymous (n : Node) : Eval (Nat × Node) := do
  modify (·.pushScope .anonymous)
  let function ← child n 0
  let (i, s) := (← get).allocate { name := anonymousName, function := some function }
  set (s.pushCall i)
  let _ ← visit function
  pure (i, function)

/-- The record for a call of a defined function: a copy of the innermost one if that is the same function,
otherwise the one that was made by the definition. -/
def enterDefined (name : Value) : Eval Nat := do
  let s ← get
  match s.current? name with
  | some (top, f) =>
    let (i, s) := s.allocate { f with parameters := [], arguments := [], caller := some top }
    set (s.pushCall i)
    pure i
  | none =>
    match s.functions.get? ⟨name⟩ with
    | none => missing name
    | some i =>
      set ((s.modifyFrame i fun f =>
        { f with parameters := [], arguments := [], caller := s.calls.head? }).pushCall i)
      pure i

def openDefined (n : Node) : Eval (Value × Nat × Node) := do
  modify (·.pushScope .defined)
  let name ← nameOf (← child n 0)
  let i ← enterDefined name
  let function ← functionOf i
  let _ ← visit function
  pure (name, i, function)

def passArguments (n : Node) (i : Nat) (function : Node) : Eval Node := do
  let _ ← visit (← child n 1)
  bind i
  child function 1

def callOf (name : Value) (i : Nat) : Eval Call := do
  return ⟨name, (← frameAt i).arguments⟩

def remember (name : Value) (i : Nat) (v : Value) : Eval Unit := do
  let call ← callOf name i
  modify fun s => { s with memo := s.memo.insert call v }

def compute (name : Value) (i : Nat) (body : Node) : Eval Value := do
  let v ← visit body
  remember name i v
  pure v

def answer (memoize : Bool) (name : Value) (i : Nat) (body : Node) : Eval Value := do
  let call ← callOf name i
  let memo := (← get).memo
  match if memoize then memo.get? call else none with
  | some v => pure v
  | none => compute name i body

def prepare (n : Node) : Eval (Value × Nat × Node) := do
  let (name, i, function) ← openDefined n
  let body ← passArguments n i function
  pure (name, i, body)

def leaveWith (r : Value) : Eval Value := do
  leaveCall
  pure r

def callAnonymous (n : Node) : Eval Value := do
  let (i, function) ← openAnonymous n
  let body ← passArguments n i function
  let r ← visit body
  leaveWith r

def conclude (memoize : Bool) (name : Value) (i : Nat) (body : Node) : Eval Value := do
  let r ← answer memoize name i body
  leaveWith r

def callDefined (memoize : Bool) (n : Node) : Eval Value := do
  let (name, i, body) ← prepare n
  conclude memoize name i body

def addArgument (first : Node) : Eval Unit :=
  if first.kind = .argument then do
    let i ← currentCall
    let v ← visit (← child first 0)
    modify (·.modifyFrame i fun f => { f with arguments := f.arguments ++ [v] })
  else pure ()

def addParameter (first : Node) : Eval Unit :=
  if first.kind = .reference then do
    let i ← currentCall
    let name ← nameOf first
    modify (·.modifyFrame i fun f => { f with parameters := f.parameters ++ [name] })
  else pure ()

def visitRest (kind : Kind) (rest : Node) : Eval Unit :=
  if rest.kind = kind then do
    let _ ← visit rest
  else pure ()

def arguments (n : Node) : Eval Value := do
  addArgument (← child n 0)
  visitRest .arguments (← child n 1)
  pure .nothing

def parameterList (n : Node) : Eval Value := do
  addParameter (← child n 0)
  visitRest .parameterList (← child n 1)
  pure .nothing

def statements (n : Node) : Eval Value := do
  let _ ← visit (← child n 0)
  let _ ← visit (← child n 1)
  pure .nothing

def step (memoize : Bool) (n : Node) : Eval Value :=
  match n.kind with
  | .statements => statements n
  | .binary b => binary b n
  | .negation => negation n
  | .printNumber => printNumber n
  | .printBool => printBool n
  | .number | .bool => pure n.value
  | .operands => operands n
  | .conditional => conditional n
  | .test => test n
  | .consequence | .alternative | .body => do visit (← child n 0)
  | .definition => definition n
  | .reference => reference n
  | .callAnonymous => callAnonymous n
  | .callDefined => callDefined memoize n
  | .function | .parameters => do
    let _ ← visit (← child n 0)
    pure .nothing
  | .arguments => arguments n
  | .parameterList => parameterList n
  | .identifier | .functionName | .argument | .null | .other _ => pure .nothing

end Eval

/-- What evaluating a tree in a store comes to; the number bounds the depth of nested evaluations. -/
def evaluate (memoize : Bool) : Nat → Node → Store → Except Fault Value × Store
  | 0, _, s => (.error .tooDeep, s)
  | d + 1, n, s => (Eval.step memoize n s).run (evaluate memoize d)

def eval (memoize : Bool) (depth : Nat) (n : Node) : Evaluation Value :=
  ExceptT.mk fun s => evaluate memoize depth n s

end LispKit.Lisp
