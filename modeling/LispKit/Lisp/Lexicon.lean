import LispKit.Lisp.Node
import LispKit.Scanner.Build
import LispKit.Scanner.Scan

/-! The tokens of the language. -/

namespace LispKit.Lisp

/-- What a token or a phrase stands for. -/
inductive Phrase where
  | nothing
  | text (s : String)
  | node (n : Node)

namespace Phrase

def typeName : Phrase → String
  | nothing => "NoneType"
  | text _ => "str"
  | node _ => "Node"

def write : Phrase → Except Fault String
  | nothing => .ok "None"
  | text s => .ok (Text.quoted s)
  | node n => n.write

def display : Phrase → Except Fault String
  | text s => .ok s
  | p => p.write

def node? : Phrase → Option Node
  | node n => some n
  | _ => none

end Phrase

/-- The surroundings of reading: the number for the next node, what was printed, whether the program is
valid so far, and whether everything is printed that is found. -/
structure Desk where
  nextId : Int := 0
  out : String := ""
  valid : Bool := true
  verbose : Bool := false

namespace Desk

def write (d : Desk) (text : String) : Desk :=
  { d with out := d.out ++ text }

def print (d : Desk) (line : String) : Desk :=
  { d with out := d.out ++ line ++ "\n" }

def node (d : Desk) (kind : Kind) (value : Value) (children : List Node) : Node × Desk :=
  (.mk kind value d.nextId children, { d with nextId := d.nextId + 1 })

end Desk

abbrev LispToken := Scanner.Token Phrase

namespace Lexicon

def withNode (t : LispToken) (kind : Kind) (value : Value) (d : Desk) :
    Except Fault LispToken × Desk :=
  let (n, d) := d.node kind value []
  (.ok { t with value := .node n }, d)

def lexeme (t : LispToken) : String :=
  match t.value with
  | .text s => s
  | _ => ""

def number (t : LispToken) (d : Desk) : Except Fault LispToken × Desk :=
  match Text.readInteger (lexeme t) with
  | .ok n => withNode t .number (.int n) d
  | .error (.malformed s) => (.error (.malformedNumeral s), d)
  | .error (.tooLong n) => (.error (.longNumeral n), d)

def bool (t : LispToken) (d : Desk) : Except Fault LispToken × Desk :=
  withNode t .bool (.bool (lexeme t = "#t")) d

def reserved : List (String × String) :=
  [("print-num", "PRINT_NUM"), ("print-bool", "PRINT_BOOL"), ("mod", "MOD"), ("and", "AND"),
    ("or", "OR"), ("not", "NOT"), ("define", "DEF"), ("if", "IF"), ("fun", "FUN")]

def identifier (t : LispToken) (d : Desk) : Except Fault LispToken × Desk :=
  match reserved.lookup (lexeme t) with
  | some type => (.ok { t with type := type }, d)
  | none => withNode { t with type := "ID" } .identifier (.text (lexeme t)) d

def illegal (t : LispToken) (d : Desk) : Except Fault LispToken × Desk :=
  (.ok t, d.print ("Illegal character '" ++ String.ofList ((lexeme t).toList.take 1) ++ "'"))

abbrev LispHandler := Scanner.Handler Phrase Desk

def rule (name pattern : String) (line : Int) (edit : LispToken → Desk → Except Fault LispToken × Desk) :
    String × Attribute LispHandler :=
  (name, .routine ⟨name, some pattern, line, 1, false, .always ⟨[.edit edit], .keep⟩⟩)

def plain (name pattern : String) : String × Attribute LispHandler :=
  (name, .value (.text pattern))

def tokenTypes : List String :=
  ["NUMBER", "BOOL", "PLUS", "MINUS", "MUL", "DIV", "Greater", "Less", "Equal", "ID", "LPAREN",
    "RPAREN"] ++ reserved.map Prod.snd

def declarations : Declarations LispHandler where
  file := ""
  source := none
  attributes :=
    [("tokens", .value (.list (tokenTypes.map .text))),
      ("literals", .value (.list (["(", ")", "+", "-", "*", "/", ">", "<", "="].map .text))),
      plain "t_PRINT_NUM" "print-num",
      plain "t_PRINT_BOOL" "print-bool",
      plain "t_MOD" "mod",
      plain "t_AND" "and",
      plain "t_OR" "or",
      plain "t_NOT" "not",
      plain "t_DEF" "define",
      plain "t_IF" "if",
      plain "t_FUN" "fun",
      plain "t_PLUS" "\\+",
      plain "t_MINUS" "\\-",
      plain "t_MUL" "\\*",
      plain "t_DIV" "/",
      plain "t_Greater" ">",
      plain "t_Less" "<",
      plain "t_Equal" "=",
      plain "t_LPAREN" "\\(",
      plain "t_RPAREN" "\\)",
      plain "t_ignore" " \t\n\r",
      rule "t_NUMBER" "0|[1-9][0-9]*|\\-[1-9][0-9]*" 1 number,
      rule "t_BOOL" "\\#t|\\#f" 2 bool,
      rule "t_ID" "[a-z]([a-z]|[0-9]|\\-)*" 3 identifier,
      ("t_error", .routine ⟨"t_error", none, 4, 1, false, .always ⟨[.edit illegal, .skip 1], .drop⟩⟩)]

end Lexicon

abbrev LispScanner := Scanner Phrase Desk

def builtScanner : Except Scanner.BuildError (Scanner.Built Phrase Desk) × Logs → LispScanner
  | (.ok built, _) => built.scanner
  | (.error _, _) => Scanner.Build.start ⟨{}, {}, {}, {}, ""⟩

@[irreducible] def scanner : LispScanner :=
  builtScanner (Scanner.build Lexicon.declarations {})

def maker : Scanner.Maker Phrase := ⟨.text⟩

end LispKit.Lisp
