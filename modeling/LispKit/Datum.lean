import LispKit.Fault
import LispKit.Text.Decimal

/-! Data: the values that declarations are made of and that grammar rules produce. -/

namespace LispKit

inductive Datum where
  | nothing
  | bool (b : Bool)
  | int (n : Int)
  | text (s : String)
  | list (items : List Datum)
  | tuple (items : List Datum)
  | record (keys : List String) (values : List Datum)
  | token (type : String) (value : Datum) (line position : Option Int)

instance : Inhabited Datum := ⟨.nothing⟩

namespace Datum

def typeName : Datum → String
  | nothing => "NoneType"
  | bool _ => "bool"
  | int _ => "int"
  | text _ => "str"
  | list _ => "list"
  | tuple _ => "tuple"
  | record _ _ => "dict"
  | token .. => "LexToken"

def isTrue : Datum → Bool
  | nothing => false
  | bool b => b
  | int n => n != 0
  | text s => !s.isEmpty
  | list items => !items.isEmpty
  | tuple items => !items.isEmpty
  | record keys _ => !keys.isEmpty
  | token .. => true

def ofBool (b : Bool) : String :=
  if b then "True" else "False"

def commaSeparated (items : List String) : String :=
  ", ".intercalate items

def writeTuple (items : List String) : String :=
  match items with
  | [item] => "(" ++ item ++ ",)"
  | _ => "(" ++ commaSeparated items ++ ")"

def writeRecord (keys values : List String) : String :=
  "\x7b" ++ commaSeparated (List.zipWith (fun k v => Text.quoted k ++ ": " ++ v) keys values) ++ "\x7d"

mutual

/-- The written form of a datum; a token is written with its line and position. -/
def write : Datum → Except Fault String
  | nothing => .ok "None"
  | bool b => .ok (ofBool b)
  | int n => .ok (Text.decimal n)
  | text s => .ok (Text.quoted s)
  | list items => (writeAll items).map fun ws => "[" ++ commaSeparated ws ++ "]"
  | tuple items => (writeAll items).map writeTuple
  | record keys values => (writeAll values).map (writeRecord keys)
  | token type value line position => do
    let value ← write value
    match line, position with
    | none, _ => .error (.missingAttribute "LexToken" "lineno")
    | _, none => .error (.missingAttribute "LexToken" "lexpos")
    | some l, some p =>
      .ok ("LexToken(" ++ type ++ "," ++ value ++ "," ++ Text.decimal l ++ "," ++ Text.decimal p ++ ")")

def writeAll : List Datum → Except Fault (List String)
  | [] => .ok []
  | d :: ds => do
    let w ← write d
    let ws ← writeAll ds
    .ok (w :: ws)

end

def written (d : Datum) : String :=
  match d.write with
  | .ok s => s
  | .error _ => ""

mutual

def same : Datum → Datum → Bool
  | nothing, nothing => true
  | bool a, bool b => a == b
  | bool a, int n => n == (if a then 1 else 0)
  | int n, bool a => n == (if a then 1 else 0)
  | int m, int n => m == n
  | text s, text t => s == t
  | list xs, list ys => sameAll xs ys
  | tuple xs, tuple ys => sameAll xs ys
  | _, _ => false

def sameAll : List Datum → List Datum → Bool
  | [], [] => true
  | x :: xs, y :: ys => same x y && sameAll xs ys
  | _, _ => false

end

end Datum

end LispKit
