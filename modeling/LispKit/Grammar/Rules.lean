import LispKit.Grammar.Declare

/-! Rule texts: productions written one to a line, further alternatives after a bar. -/

namespace LispKit.Grammar

structure RuleLine where
  place : Place
  name : String
  symbols : List String

inductive RuleTextError where
  | misplacedBar (place : Place)
  | missingColon (place : Place)
  | incomplete (place : Place) (line : String)

def RuleTextError.message : RuleTextError → String
  | misplacedBar place => place.text ++ ": Misplaced '|'"
  | missingColon place => place.text ++ ": Syntax error. Expected ':'"
  | incomplete place line => place.text ++ ": Syntax error in rule " ++ Text.quoted line

def readLines (file : String) :
    Int → Option String → List (List Char) → Except RuleTextError (List RuleLine)
  | _, _, [] => .ok []
  | line, previous, text :: rest =>
    let place : Place := ⟨file, line + 1⟩
    match (Text.words text).map String.ofList with
    | [] => readLines file (line + 1) previous rest
    | "|" :: symbols =>
      match previous with
      | none => .error (.misplacedBar place)
      | some name => (readLines file (line + 1) previous rest).map (⟨place, name, symbols⟩ :: ·)
    | [_] => .error (.incomplete place (String.ofList (Text.trim text)))
    | name :: colon :: symbols =>
      if colon = ":" || colon = "::=" then
        (readLines file (line + 1) (some name) rest).map (⟨place, name, symbols⟩ :: ·)
      else .error (.missingColon place)

def readRules (text file : String) (line : Int) : Except RuleTextError (List RuleLine) :=
  readLines file line none (Text.lines text.toList)

end LispKit.Grammar
