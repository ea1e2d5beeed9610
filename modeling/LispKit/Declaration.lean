import LispKit.Datum
import LispKit.Registry

/-! Declarations: the named values and routines that a scanner or a parser is built from. -/

namespace LispKit

/-- A routine as its declaration shows it, and what it does. -/
structure Routine (β : Type) where
  name : String
  doc : Option String
  line : Int
  parameters : Nat
  isMethod : Bool
  behaviour : β

inductive Attribute (β : Type) where
  | value (d : Datum)
  | routine (r : Routine β)

/-- Named attributes in order, the file they come from, and perhaps its lines. -/
structure Declarations (β : Type) where
  file : String
  attributes : List (String × Attribute β)
  source : Option (List String)

namespace Routine

variable {β : Type}

def expectedParameters (r : Routine β) : Nat :=
  if r.isMethod then 2 else 1

def place (r : Routine β) (file : String) : String :=
  file ++ ":" ++ Text.decimal r.line

end Routine

namespace Declarations

variable {β : Type}

def get? (ds : Declarations β) (name : String) : Option (Attribute β) :=
  ds.attributes.lookup name

def value? (ds : Declarations β) (name : String) : Option Datum :=
  match ds.get? name with
  | some (.value d) => some d
  | _ => none

def routine? (ds : Declarations β) (name : String) : Option (Routine β) :=
  match ds.get? name with
  | some (.routine r) => some r
  | _ => none

def routines (ds : Declarations β) : List (String × Routine β) :=
  ds.attributes.filterMap fun (name, a) =>
    match a with
    | .routine r => some (name, r)
    | .value _ => none

end Declarations

namespace SourceLine

def isWordChar (c : Char) : Bool :=
  c.isAlphanum || c = '_'

def nameFrom (begin_ : List Char) (s : List Char) : Option (String × List Char) :=
  if begin_.isPrefixOf s then
    some (String.ofList (s.takeWhile isWordChar), s.dropWhile isWordChar)
  else none

def definedRoutine (begin_ : List Char) (line : String) : Option String :=
  match Text.trimLeft line.toList with
  | 'd' :: 'e' :: 'f' :: rest =>
    if (rest.takeWhile Text.isBlank).isEmpty then none
    else
      match nameFrom begin_ (Text.trimLeft rest) with
      | some (name, '(' :: _) => some name
      | _ => none
  | _ => none

def definedValue (begin_ : List Char) (line : String) : Option String :=
  match nameFrom begin_ (Text.trimLeft line.toList) with
  | some (name, rest) =>
    match Text.trimLeft rest with
    | '=' :: _ => some name
    | _ => none
  | none => none

structure Redefinition where
  name : String
  line : Nat
  previous : Nat

def redefinitionsFrom (defined : String → Option String) :
    Nat → Registry String Nat → List String → List Redefinition
  | _, _, [] => []
  | n, seen, line :: rest =>
    match defined line with
    | none => redefinitionsFrom defined (n + 1) seen rest
    | some name =>
      match seen.get? name with
      | none => redefinitionsFrom defined (n + 1) (seen.insert name n) rest
      | some previous => ⟨name, n, previous⟩ :: redefinitionsFrom defined (n + 1) seen rest

def redefinitions (defined : String → Option String) (lines : List String) : List Redefinition :=
  redefinitionsFrom defined 1 {} lines

end SourceLine

end LispKit
