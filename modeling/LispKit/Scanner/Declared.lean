import LispKit.Declaration
import LispKit.Log
import LispKit.Scanner.Basic
import LispKit.Sort

/-! What the declarations of a scanner say, and the checks on it. -/

namespace LispKit.Scanner

inductive BuildError where
  | refused
  | fault (f : Fault)
  deriving DecidableEq

def BuildError.message : BuildError → String
  | refused => "Can't build lexer"
  | fault f => f.message

abbrev Building := Logging BuildError

def faulty {α : Type} (r : Except Fault α) : Building α :=
  match r with
  | .ok a => pure a
  | .error f => throw (.fault f)

def complainExpanded (text : String) : Building Unit := do
  let text ← faulty (Logging.expanded text)
  Logging.complain text

/-- An inclusive state has the rules of the initial state after its own. -/
inductive StateKind where
  | inclusive
  | exclusive
  deriving DecidableEq

def StateKind.name : StateKind → String
  | inclusive => "inclusive"
  | exclusive => "exclusive"

structure Declared (V σ : Type) where
  failed : Bool := false
  tokens : Datum := .list []
  literals : Datum := .text ""
  states : Registry String StateKind := ⟨[(initialState, .inclusive)]⟩
  tokenNames : Registry String String := {}
  routines : Registry String (List (String × Routine (Handler V σ))) := {}
  texts : Registry String (List (String × String)) := {}
  ignored : Registry String String := {}
  onError : Registry String (Routine (Handler V σ)) := {}
  onEnd : Registry String (Routine (Handler V σ)) := {}

namespace Declared

variable {V σ : Type}

def ruleMark : List Char := ['t', '_']

def refuse (d : Declared V σ) (text : String) : Building (Declared V σ) := do
  Logging.complain text
  pure { d with failed := true }

def tokenItems (d : Declared V σ) : List Datum :=
  match d.tokens with
  | .list items | .tuple items => items
  | _ => []

def hasToken (d : Declared V σ) (name : String) : Bool :=
  d.tokenItems.any fun t => match t with
    | .text s => s = name
    | _ => false

def readTokens (d : Declared V σ) (tokens : Option Datum) : Building (Declared V σ) :=
  match tokens.filter Datum.isTrue with
  | none => d.refuse "No token list is defined"
  | some (.list items) => pure { d with tokens := .list items }
  | some (.tuple items) => pure { d with tokens := .tuple items }
  | some _ => d.refuse "tokens must be a list or tuple"

def readLiterals (d : Declared V σ) (literals : Option Datum) : Declared V σ :=
  { d with literals := (literals.filter Datum.isTrue).getD (.text "") }

def readState (d : Declared V σ) (entry : Datum) : Building (Declared V σ) :=
  match entry with
  | .tuple [name, kind] =>
    match name with
    | .text name =>
      let add (k : StateKind) :=
        if d.states.contains name then d.refuse ("State " ++ Text.quoted name ++ " already defined")
        else pure { d with states := d.states.insert name k }
      match kind with
      | .text "inclusive" => add .inclusive
      | .text "exclusive" => add .exclusive
      | _ => d.refuse ("State type for state " ++ Text.quoted name ++
          " must be 'inclusive' or 'exclusive'")
    | other => d.refuse ("State name " ++ other.written ++ " must be a string")
  | other => d.refuse ("Invalid state specifier " ++ other.written ++
      ". Must be a tuple (statename,'exclusive|inclusive')")

def readStates (d : Declared V σ) (states : Option Datum) : Building (Declared V σ) :=
  match states.filter Datum.isTrue with
  | none => pure d
  | some (.list entries) | some (.tuple entries) => entries.foldlM readState d
  | some _ => d.refuse "states must be defined as a tuple or list"

def addTo {α : Type} (states : List String) (a : α) (r : Registry String (List α)) :
    Registry String (List α) :=
  states.foldl (fun r s => r.update s [] (· ++ [a])) r

def setFor {α : Type} (states : List String) (a : α) (r : Registry String α) : Registry String α :=
  states.foldl (fun r s => r.insert s a) r

def readRoutine (d : Declared V σ) (file : String) (name : String) (rule : RuleName)
    (r : Routine (Handler V σ)) : Building (Declared V σ) :=
  if rule.token = "error" then pure { d with onError := setFor rule.states r d.onError }
  else if rule.token = "eof" then pure { d with onEnd := setFor rule.states r d.onEnd }
  else if rule.token = "ignore" then
    d.refuse (r.place file ++ ": Rule " ++ Text.quoted r.name ++ " must be defined as a string")
  else pure { d with routines := addTo rule.states (name, r) d.routines }

def readText (d : Declared V σ) (name : String) (rule : RuleName) (text : String) :
    Building (Declared V σ) :=
  if rule.token = "ignore" then do
    if text.toList.contains '\\' then Logging.warn (name ++ " contains a literal backslash '\\'")
    pure { d with ignored := setFor rule.states text d.ignored }
  else if rule.token = "error" then
    d.refuse ("Rule " ++ Text.quoted name ++ " must be defined as a function")
  else pure { d with texts := addTo rule.states (name, text) d.texts }

def readRule (file : String) (d : Declared V σ) (rule : String × Attribute (Handler V σ)) :
    Building (Declared V σ) := do
  let (name, a) := rule
  let parts ← faulty (RuleName.read name d.states.keys)
  let d := { d with tokenNames := d.tokenNames.insert name parts.token }
  match a with
  | .routine r => d.readRoutine file name parts r
  | .value (.text s) => d.readText name parts s
  | .value _ => d.refuse (name ++ " not defined as a function or string")

def sortRules (d : Declared V σ) : Declared V σ :=
  { d with
    routines := ⟨d.routines.entries.map fun (s, rs) =>
      (s, sorted (fun a b => a.2.line ≤ b.2.line) rs)⟩
    texts := ⟨d.texts.entries.map fun (s, ts) =>
      (s, sorted (fun a b => b.2.length ≤ a.2.length) ts)⟩ }

def readRules (d : Declared V σ) (ds : Declarations (Handler V σ)) : Building (Declared V σ) := do
  let rules := ds.attributes.filter fun (name, _) => ruleMark.isPrefixOf name.toList
  if rules.isEmpty then d.refuse "No rules of the form t_rulename are defined"
  else
    let d ← rules.foldlM (readRule ds.file) d
    pure d.sortRules

def read (ds : Declarations (Handler V σ)) : Building (Declared V σ) := do
  let d ← readTokens {} (ds.value? "tokens")
  let d := d.readLiterals (ds.value? "literals")
  let d ← d.readStates (ds.value? "states")
  d.readRules ds

def isTokenName (s : String) : Bool :=
  let letters := match s.toList.reverse with
    | '\n' :: rest => rest
    | all => all
  !letters.isEmpty && letters.all SourceLine.isWordChar

def checkTokensFrom (d : Declared V σ) (seen : List String) : List Datum → Building (Declared V σ)
  | [] => pure d
  | .text name :: rest => do
    let bad := !isTokenName name
    if bad then complainExpanded ("Bad token name " ++ Text.quoted name)
    if seen.contains name then
      let text ← faulty (Logging.expanded ("Token " ++ Text.quoted name ++ " multiply defined"))
      Logging.warn text
    checkTokensFrom { d with failed := d.failed || bad } (name :: seen) rest
  | other :: _ => throw (.fault (.notText other.typeName))

def literalItems? : Datum → Option (List Datum)
  | .text s => some (s.toList.map fun c => .text (String.singleton c))
  | .list items | .tuple items => some items
  | .record keys _ => some (keys.map Datum.text)
  | _ => none

def badSpecification : String :=
  "Invalid literals specification. literals must be a sequence of characters"

def checkLiteralItems (d : Declared V σ) : List Datum → Building (Declared V σ)
  | [] => pure d
  | item :: rest =>
    let good : Bool := match item with
      | .text s => s.length ≤ 1
      | _ => false
    if good then checkLiteralItems d rest
    else
      match Text.expand ("Invalid literal " ++ item.written ++ ". Must be a single character") with
      | .ok text => do
        let d ← d.refuse text
        checkLiteralItems d rest
      | .error .incomplete => throw (.fault (.template .incomplete))
      | .error _ => d.refuse badSpecification

def checkLiterals (d : Declared V σ) : Building (Declared V σ) :=
  match literalItems? d.literals with
  | none => d.refuse badSpecification
  | some items => d.checkLiteralItems items

def groupText (name pattern : String) : String :=
  "(?P<" ++ name ++ ">" ++ pattern ++ ")"

def checkPattern (d : Declared V σ) (flags : Pattern.Flags) (name pattern : String)
    (matchesEmpty : String) (invalid hash : String) : Building (Declared V σ) :=
  match Pattern.compile (groupText name pattern) flags with
  | .ok c => if (c.match? 0 []).isSome then d.refuse matchesEmpty else pure d
  | .error e => do
    let d ← d.refuse (invalid ++ e.message (groupText name pattern))
    if pattern.contains '#' then d.refuse hash else pure d

def checkParameters (d : Declared V σ) (file : String) (r : Routine (Handler V σ)) :
    Building (Declared V σ) :=
  if r.expectedParameters < r.parameters then
    d.refuse (r.place file ++ ": Rule " ++ Text.quoted r.name ++ " has too many arguments")
  else if r.parameters < r.expectedParameters then
    d.refuse (r.place file ++ ": Rule " ++ Text.quoted r.name ++ " requires an argument")
  else pure d

def checkRoutine (file : String) (flags : Pattern.Flags) (d : Declared V σ)
    (rule : String × Routine (Handler V σ)) : Building (Declared V σ) :=
  let (name, r) := rule
  let place := r.place file
  if r.parameters ≠ r.expectedParameters then d.checkParameters file r
  else
    match r.doc with
    | none | some "" =>
      d.refuse (place ++ ": No regular expression defined for rule " ++ Text.quoted r.name)
    | some pattern =>
      d.checkPattern flags name pattern
        (place ++ ": Regular expression for rule " ++ Text.quoted r.name ++ " matches empty string")
        (place ++ ": Invalid regular expression for rule '" ++ r.name ++ "'. ")
        (place ++ ". Make sure '#' in rule " ++ Text.quoted r.name ++ " is escaped with '\\#'")

def ignoreWord : List Char := "ignore_".toList

def checkText (flags : Pattern.Flags) (d : Declared V σ) (rule : String × String) :
    Building (Declared V σ) :=
  let (name, pattern) := rule
  let tokenName := d.tokenNames.getD name ""
  if !d.hasToken tokenName && (Text.placeOf? ignoreWord tokenName.toList).isNone then
    d.refuse ("Rule " ++ Text.quoted name ++ " defined for an unspecified token " ++ tokenName)
  else
    d.checkPattern flags name pattern
      ("Regular expression for rule " ++ Text.quoted name ++ " matches empty string")
      ("Invalid regular expression for rule " ++ Text.quoted name ++ ". ")
      ("Make sure '#' in rule " ++ Text.quoted name ++ " is escaped with '\\#'")

def checkState (file : String) (flags : Pattern.Flags) (d : Declared V σ) (state : String) :
    Building (Declared V σ) := do
  let routines := d.routines.getD state []
  let texts := d.texts.getD state []
  let d ← routines.foldlM (checkRoutine file flags) d
  let d ← texts.foldlM (checkText flags) d
  let d ← if routines.isEmpty && texts.isEmpty then
      d.refuse ("No rules defined for state " ++ Text.quoted state)
    else pure d
  match d.onError.get? state with
  | some r => d.checkParameters file r
  | none => pure d

def hasRoutines (d : Declared V σ) : Bool :=
  d.states.keys.any fun s => !(d.routines.getD s []).isEmpty || (d.onError.get? s).isSome

def definedRule (line : String) : Option String :=
  (SourceLine.definedRoutine ruleMark line).orElse fun _ => SourceLine.definedValue ruleMark line

def checkSource (d : Declared V σ) (ds : Declarations (Handler V σ)) : Building (Declared V σ) :=
  (SourceLine.redefinitions definedRule (ds.source.getD [])).foldlM (fun d r =>
    d.refuse (ds.file ++ ":" ++ Nat.repr r.line ++ ": Rule " ++ r.name ++
      " redefined. Previously defined on line " ++ Nat.repr r.previous)) d

def check (d : Declared V σ) (ds : Declarations (Handler V σ)) (flags : Pattern.Flags) : Building Unit := do
  let d ← d.checkTokensFrom [] d.tokenItems
  let d ← d.checkLiterals
  let d ← d.states.keys.foldlM (checkState ds.file flags) d
  let d ← if d.hasRoutines then d.checkSource ds else pure d
  if d.failed then throw .refused

end Declared

end LispKit.Scanner
