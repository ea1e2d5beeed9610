import LispKit.Lisp.Eval
import LispKit.Lisp.Layout
import LispKit.Lisp.Levels
import LispKit.Lisp.Reader

/-! Running programs: reading, evaluating, and in a verbose run printing all that is found on the way. -/

namespace LispKit.Lisp

structure Run where
  desk : Desk := {}
  scanner : LispScanner := scanner
  store : Store := {}
  drawing : Option (Drawing Graph Float) := none

abbrev Running := ExceptT Scanner.ScanError (StateM Run)

namespace Running

def fail {α : Type} (f : Fault) : Running α :=
  throw (.fault f)

def ofExcept {α : Type} (r : Except Fault α) : Running α :=
  match r with
  | .ok a => pure a
  | .error f => fail f

def print (line : String) : Running Unit :=
  modify fun r => { r with desk := r.desk.print line }

/-- Prints a text and stays on its line. -/
def write (text : String) : Running Unit :=
  modify fun r => { r with desk := r.desk.write text }

def separator : String :=
  String.ofList (List.replicate 30 '-')

def listTokens (limits : Limits) (source : String) : Running Unit := do
  print "Tokens:"
  let r ← get
  let note (t : LispToken) (d : Desk) : Except Fault Desk := do
    let v ← t.value.display
    .ok (d.print (t.type ++ " " ++ v))
  let (outcome, sc, desk) :=
    Scanner.visit maker limits note limits.steps (r.scanner.input source.toList) r.desk
  set { r with scanner := sc, desk := desk }
  match outcome with
  | .ok () => print separator
  | .error e => throw e

def readSource (limits : Limits) (source : String) : Running (Option Node) := do
  let r ← get
  let p := read limits tables {} r.scanner r.desk source
  let reading := p.config.host
  set { r with scanner := reading.scanner, desk := reading.desk }
  match p with
  | .finished value _ => pure (treeOf value)
  | .failed (.fault f) _ => fail f
  | .failed (.host e) _ => throw e
  | .running _ => fail .tooDeep

def printTree (tree : Option Node) : Running Unit := do
  print "AST:"
  let line ← ofExcept (Node.writeOption tree)
  print line
  print separator

def present (tree : Option Node) : Running Node :=
  match tree with
  | some n => pure n
  | none => fail (.missingAttribute "NoneType" "type")

def printNode (n : Node) : Running Unit := do
  let v ← ofExcept n.value.display
  write (n.kind.name ++ ":" ++ v ++ " ")

def printNodes (n : Node) : Running Unit :=
  n.levels.forM fun level => do
    level.forM printNode
    print ""

def printLevels (tree : Option Node) : Running Unit := do
  print "AST BFS:"
  let n ← present tree
  printNodes n
  print separator

/-- Faults of operand types, which end a program with a message of its own. -/
def isTypeFault : Fault → Bool
  | .typeMismatch | .unsupported .. | .unordered .. | .unrepeated .. | .unusedArgument => true
  | _ => false

def evaluate (limits : Limits) (tree : Option Node) : Running Unit := do
  let n ← present tree
  let r ← get
  let (outcome, store) := (eval true limits.depth n).run.run { r.store with out := "" }
  set { r with store := store, desk := { r.desk with out := r.desk.out ++ store.out } }
  match outcome with
  | .ok _ => pure ()
  | .error f => if isTypeFault f then print "Type error!" else fail f

def functionText : String := "<main.Function object at 0x>"

def tableText {α : Type} (r : Registry Key α) (write : α → Except Fault String) :
    Except Fault String := do
  let entries ← r.entries.mapM fun (k, v) => do
    let key ← k.value.write
    let text ← write v
    .ok (key ++ ": " ++ text)
  .ok ("defaultdict(None, \x7b" ++ ", ".intercalate entries ++ "\x7d)")

def listText (items : List String) : String :=
  "[" ++ ", ".intercalate items ++ "]"

def printStore : Running Unit := do
  print separator
  print "Variable Dictionary:"
  let s := (← get).store
  let globals ← ofExcept (tableText s.globals Value.write)
  print globals
  print "Function Dictionary:"
  let functions ← ofExcept (tableText s.functions fun _ => .ok functionText)
  print functions
  print "Function Stack:"
  print (listText (s.calls.map fun _ => functionText))
  print "Status Stack:"
  print (listText (s.scopes.reverse.map fun c => Text.quoted c.name))

def spacing : Spacing Float := ⟨100.0, 0.4⟩

def drawProgram (tree : Option Node) : Running Unit := do
  let (drawing, _) ← ofExcept (draw Graph.canvas Float.ofInt spacing (0 : Int) 0.5 tree)
  modify fun r => { r with drawing := some drawing }

def program (limits : Limits) (verbose : Bool) (source : String) : Running Unit := do
  if verbose then listTokens limits source
  let tree ← readSource limits source
  let valid := (← get).desk.valid
  if valid then
    if verbose then
      printTree tree
      printLevels tree
      print "Result:"
    evaluate limits tree
    if verbose then
      printStore
      drawProgram tree
  else print "syntax error"

end Running

structure Outcome where
  failure : Option Scanner.ScanError
  run : Run

def runProgram (limits : Limits) (verbose : Bool) (source : String) (store : Store) : Outcome :=
  let (r, run) := (Running.program limits verbose source).run.run
    { desk := { verbose := verbose }, store := store }
  match r with
  | .ok () => ⟨none, run⟩
  | .error e => ⟨some e, run⟩

end LispKit.Lisp
