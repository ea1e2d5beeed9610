import LispKit.Lisp.Lexicon
import LispKit.Lisp.Symbol
import LispKit.Parser.Engine

/-! Reading programs: from text to syntax trees. -/

namespace LispKit.Lisp

def tables : Parser.Tables Symbol :=
  .ofGrammar grammar

structure Reading where
  scanner : LispScanner
  desk : Desk

namespace Reading

abbrev LispSymbol := Parser.StackSymbol Symbol Phrase

def ofToken (t : LispToken) : LispSymbol :=
  { type := Symbol.ofTokenType t.type
    value := some t.value
    isToken := true
    line := some t.line
    position := some t.position }

def nextToken (limits : Limits) (r : Reading) :
    Except Scanner.ScanError (Option LispSymbol) × Reading :=
  let o := Scanner.token maker limits r.scanner r.desk
  (o.result.map (Option.map ofToken), ⟨o.scanner, o.host⟩)

def operation? : String → Option Kind
  | "+" => some (.binary .plus)
  | "-" => some (.binary .minus)
  | "*" => some (.binary .times)
  | "/" => some (.binary .divide)
  | ">" => some (.binary .greater)
  | "<" => some (.binary .less)
  | "=" => some (.binary .equal)
  | "mod" => some (.binary .modulo)
  | "and" => some (.binary .and)
  | "or" => some (.binary .or)
  | "not" => some .negation
  | _ => none

def wordOf : List Phrase → String
  | _ :: .text word :: _ => word
  | _ => ""

/-- The kind of the node that a production makes of its parts; without one, the only part is passed on. -/
def kind? (name : Symbol) (parts : List Phrase) : Option Kind :=
  match name with
  | .statements => if parts.length = 2 then some .statements else none
  | .printStatement => some (if wordOf parts = "print-num" then .printNumber else .printBool)
  | .expressions => if parts.length = 2 then some .operands else none
  | .numericOperation => operation? (wordOf parts)
  | .logicalOperation => operation? (wordOf parts)
  | .definition => some .definition
  | .reference => some .reference
  | .references => some (if parts.length = 2 then .parameterList else .null)
  | .function => some .function
  | .functionName => some .functionName
  | .parameters => some .parameters
  | .body => some .body
  | .argument => some .argument
  | .arguments => some (if parts.length = 2 then .arguments else .null)
  | .call =>
    let callee := (parts.filterMap Phrase.node?).head?
    some (if callee.map Node.kind = some .function then .callAnonymous else .callDefined)
  | .conditional => some .conditional
  | .test => some .test
  | .consequence => some .consequence
  | .alternative => some .alternative
  | _ => none

def defined : List Node → List Node
  | [x, e] => [if e.kind = .function then x.withKind .functionName else x, e]
  | nodes => nodes

/-- A phrase for a production, from the phrases of its right side: the nodes among them become the children
of a new node. -/
def phrase (name : Symbol) (parts : List Phrase) (d : Desk) : Phrase × Desk :=
  let nodes := parts.filterMap Phrase.node?
  match kind? name parts with
  | some kind =>
    let (n, d) := d.node kind .nothing (if kind = .definition then defined nodes else nodes)
    (.node n, d)
  | none =>
    (parts.head?.getD .nothing,
      if name = .program && d.valid && d.verbose then d.print "Accepted" else d)

def apply (r : Parser.Reduction Symbol Phrase) (s : Reading) :
    Parser.RuleReply Symbol Phrase Scanner.ScanError × Reading :=
  let parts := r.arguments.map fun a => a.value.getD .nothing
  let (p, desk) := phrase r.production.name parts s.desk
  (.done { r.symbol with value := some p } false, { s with desk := desk })

def onError (offending : Option LispSymbol) (s : Reading) :
    Except Scanner.ScanError (Parser.ErrorReply Symbol Phrase) × Reading :=
  let s := { s with desk := { s.desk with valid := false } }
  if s.desk.verbose then
    match offending with
    | none => (.error (.fault (.missingAttribute "NoneType" "value")), s)
    | some t =>
      match t.getValue.bind Phrase.write with
      | .error f => (.error (.fault f), s)
      | .ok written => (.ok {}, { s with desk := s.desk.print ("Syntax error at " ++ written) })
  else (.ok {}, s)

def host (limits : Limits) : Parser.Host Symbol Phrase Reading Scanner.ScanError where
  nextToken := nextToken limits
  place r := (r.scanner.line, r.scanner.position)
  apply := apply
  onError := some onError
  display p := p.write.map (p.typeName, ·)
  nothing := .nothing
  errorValue := .text "error"
  ofToken s := s.value.getD .nothing

end Reading

def read (limits : Limits) (t : Parser.Tables Symbol) (m : Parser.Mode) (sc : LispScanner) (d : Desk)
    (source : String) : Parser.Progress Symbol Phrase Reading Scanner.ScanError :=
  Parser.parse (Reading.host limits) t m limits.steps true ⟨sc.input source.toList, d⟩

def treeOf (value : Option Phrase) : Option Node :=
  value.bind Phrase.node?

end LispKit.Lisp
