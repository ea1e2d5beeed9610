import LispKit.Datum
import LispKit.Scanner.Token

/-! Ready-made handlers over data that print to a text. -/

namespace LispKit.Scanner

structure HandlerActions where
  prints : Bool := false
  reads : Bool := false
  type : Option String := none
  countsLines : Bool := false
  begin_ : Option String := none
  push : Option String := none
  pops : Bool := false
  skip : Option Int := none
  ending : Ending := .keep

namespace HandlerActions

def printToken (t : Token Datum) (out : String) : Except Fault (Token Datum) × String :=
  (.ok t, out ++ t.type ++ " " ++ t.value.written ++ " " ++ Text.decimal t.line ++ " " ++
    Text.decimal t.position ++ "\n")

def readValue (t : Token Datum) : Except Fault (Token Datum) :=
  match t.value with
  | .text s =>
    match Text.readInteger s with
    | .ok n => .ok { t with value := .int n }
    | .error (.malformed s) => .error (.malformedNumeral s)
    | .error (.tooLong n) => .error (.longNumeral n)
  | _ => .ok t

def lineFeeds (t : Token Datum) : Except Fault Int :=
  match t.value with
  | .text s => .ok (s.toList.count '\n')
  | d => .error (.missingAttribute d.typeName "count")

def pure_ (f : Token Datum → Except Fault (Token Datum)) : Effect Datum String :=
  .edit fun t out => (f t, out)

def script (a : HandlerActions) : Script Datum String where
  effects :=
    (if a.prints then [.edit printToken] else []) ++
    (if a.reads then [pure_ readValue] else []) ++
    (a.type.toList.map fun type => pure_ fun t => .ok { t with type := type }) ++
    (if a.countsLines then [.countLines lineFeeds] else []) ++
    (a.begin_.toList.map .begin) ++
    (a.push.toList.map .push) ++
    (if a.pops then [.pop] else []) ++
    (a.skip.toList.map .skip)
  ending := a.ending

def handler (a : HandlerActions) : Handler Datum String :=
  .always a.script

end HandlerActions

end LispKit.Scanner
