/-! Message templates: a percent sign asks for an argument, two of them stand for one. -/

namespace LispKit.Text

inductive TemplateError where
  | missingArgument
  | mappingRequired
  | incomplete
  deriving DecidableEq

def TemplateError.message : TemplateError → String
  | .missingArgument => "not enough arguments for format string"
  | .mappingRequired => "format requires a mapping"
  | .incomplete => "incomplete format"

def isFlag (c : Char) : Bool :=
  c = '-' || c = '+' || c = ' ' || c = '#' || c = '0'

def isLength (c : Char) : Bool :=
  c = 'h' || c = 'l' || c = 'L'

def afterPrecision (s : List Char) : List Char :=
  match (s.dropWhile isFlag).dropWhile Char.isDigit with
  | '.' :: rest => rest.dropWhile Char.isDigit
  | rest => rest

def directiveError (s : List Char) : TemplateError :=
  if s.head? = some '(' then .mappingRequired
  else
    match afterPrecision s with
    | [] => .incomplete
    | [c] => if isLength c then .incomplete else .missingArgument
    | _ => .missingArgument

def expandChars : List Char → Except TemplateError (List Char)
  | [] => .ok []
  | '%' :: '%' :: rest => (expandChars rest).map ('%' :: ·)
  | c :: rest => if c = '%' then .error (directiveError rest) else (expandChars rest).map (c :: ·)

def expand (template : String) : Except TemplateError String :=
  (expandChars template.toList).map String.ofList

end LispKit.Text
