import LispKit.Declaration
import LispKit.Grammar.Rules
import LispKit.Log
import LispKit.Sort

/-! What the declarations of a parser say, and the checks on it. -/

namespace LispKit.Parser

/-- Why a parser cannot be built: errors that were logged, or a fault on the way. -/
inductive BuildError where
  | refused
  | unknownConflict (state : Nat)
  | fault (f : Fault)
  deriving DecidableEq

def BuildError.message : BuildError → String
  | refused => "Unable to build parser"
  | unknownConflict state => "Unknown conflict in state " ++ Nat.repr state
  | fault f => f.message

abbrev Building := Logging BuildError

def faulty {α : Type} (r : Except Fault α) : Building α :=
  match r with
  | .ok a => pure a
  | .error f => throw (.fault f)

structure Declared (β : Type) where
  start : Option Datum
  onError : Option (Attribute β)
  tokens : Option (List String)
  precedence : Option Datum
  rules : List (String × Routine β)

structure PrecedenceLine where
  symbol : String
  associativity : String
  level : Nat

namespace Declared

variable {β : Type}

def ruleMark : List Char := ['p', '_']

def isRuleName (name : String) : Bool :=
  ruleMark.isPrefixOf name.toList

def errorName : String := "p_error"

def sortTexts (xs : List String) : List String :=
  sorted (fun a b => !decide (b < a)) xs

def sortTokens (items : List Datum) : Except Fault (List String) :=
  let isText (d : Datum) : Bool := match d with
    | .text _ => true
    | _ => false
  match items.zip (items.drop 1) |>.find? fun (a, b) => isText a != isText b with
  | some (a, b) => .error (.unordered "<" b.typeName a.typeName)
  | none => .ok (sortTexts (items.map fun d => match d with
      | .text s => s
      | d => d.written))

def readTokens (tokens : Option Datum) : Building (Option (List String)) :=
  match tokens with
  | none => do
    Logging.complain "No token list is defined"
    pure none
  | some d =>
    if !d.isTrue then do
      Logging.complain "No token list is defined"
      pure none
    else
      match d with
      | .list items | .tuple items => do
        let names ← faulty (sortTokens items)
        pure (some names)
      | _ => do
        Logging.complain "tokens must be a list or tuple"
        pure none

def sortedRules (ds : Declarations β) : List (String × Routine β) :=
  sorted (fun (a, r) (b, s) => r.line < s.line || (r.line = s.line && !decide (b < a)))
    (ds.routines.filter fun (name, _) => isRuleName name && name != errorName)

def read (ds : Declarations β) (start : Option Datum) : Building (Declared β) := do
  let tokens ← readTokens (ds.value? "tokens")
  pure {
    start := match start with
      | some d => some d
      | none => match ds.value? "start" with
        | some .nothing => none
        | other => other
    onError := match ds.get? errorName with
      | some (.value d) => if d.isTrue then some (.value d) else none
      | other => other
    tokens := tokens
    precedence := (ds.value? "precedence").filter Datum.isTrue
    rules := sortedRules ds }

def joined? : Datum → Option String
  | .text s => some s
  | .list items | .tuple items =>
    items.foldr (fun d rest => match d, rest with
      | .text s, some t => some (s ++ t)
      | _, _ => none) (some "")
  | .record keys _ => some (String.join keys)
  | _ => none

def joinedAll? : Datum → Option String
  | .text s => some s
  | .list items | .tuple items =>
    items.foldr (fun d rest => do
      let s ← joined? d
      let t ← rest
      some (s ++ t)) (some "")
  | .record keys _ => some (String.join keys)
  | _ => none

/-- A text that changes with the grammar: start, precedences, tokens and rule texts in a row. What
cannot be written ends it. -/
def signature (d : Declared β) : Except Fault String :=
  let start : Except Fault String := match d.start.filter Datum.isTrue with
    | none => .ok ""
    | some (.text s) => .ok s
    | some other => .error (.unjoined 0 other.typeName)
  let rest := " ".intercalate (d.tokens.getD []) ++
    String.join (d.rules.map fun (_, r) => r.doc.getD "")
  start.map fun s =>
    match d.precedence with
    | none => s ++ rest
    | some p =>
      match joinedAll? p with
      | none => s
      | some t => s ++ t ++ rest

def checkStart (d : Declared β) : Building Unit :=
  match d.start with
  | none | some (.text _) => pure ()
  | some _ => Logging.complain "'start' must be a string"

def checkOnError (d : Declared β) (file : String) : Building Bool :=
  match d.onError with
  | none => pure false
  | some (.value _) => do
    Logging.complain "'p_error' defined, but is not a function or method"
    pure true
  | some (.routine r) =>
    if r.parameters = r.expectedParameters then pure false
    else do
      Logging.complain (r.place file ++ ": p_error() requires 1 argument")
      pure true

def warnRepeated : List String → List String → Building Unit
  | _, [] => pure ()
  | seen, name :: rest => do
    if seen.contains name then
      Logging.warn ("Token " ++ Text.quoted name ++ " multiply defined")
    warnRepeated (name :: seen) rest

def checkTokens (tokens : List String) : Building Bool :=
  if tokens.contains "error" then do
    Logging.complain "Illegal token name 'error'. Is a reserved word"
    pure true
  else do
    warnRepeated [] tokens
    pure false

def readPrecedenceSymbols (associativity : String) (level : Nat) :
    List Datum → Except String (List PrecedenceLine)
  | [] => .ok []
  | .text s :: rest =>
    (readPrecedenceSymbols associativity level rest).map (⟨s, associativity, level⟩ :: ·)
  | _ :: _ => .error "precedence items must be strings"

def readPrecedenceEntry (level : Nat) (entry : Datum) (items : List Datum) :
    Except String (List PrecedenceLine) :=
  match items with
  | [] | [_] =>
    .error ("Malformed precedence entry " ++ entry.written ++ ". Must be (assoc, term, ..., term)")
  | .text associativity :: symbols => readPrecedenceSymbols associativity level symbols
  | _ => .error "precedence associativity must be a string"

def readPrecedenceFrom (level : Nat) : List Datum → Except String (List PrecedenceLine)
  | [] => .ok []
  | entry :: rest => do
    let here ← match entry with
      | .list items | .tuple items => readPrecedenceEntry level entry items
      | _ => .error "Bad precedence table"
    let more ← readPrecedenceFrom (level + 1) rest
    .ok (here ++ more)

def readPrecedence (d : Declared β) : Except String (List PrecedenceLine) :=
  match d.precedence with
  | none => .ok []
  | some (.list entries) | some (.tuple entries) => readPrecedenceFrom 1 entries
  | some _ => .error "precedence must be a list or tuple"

def checkPrecedence (d : Declared β) : Building (Option (List PrecedenceLine)) :=
  match d.readPrecedence with
  | .ok lines => pure (some lines)
  | .error text => do
    Logging.complain text
    pure none

structure RuleProduction where
  rule : String
  line : Grammar.RuleLine

def checkRule (file : String) (name : String) (r : Routine β) :
    Building (Bool × List RuleProduction × Bool) :=
  let place := r.place file
  if r.expectedParameters < r.parameters then do
    Logging.complain (place ++ ": Rule " ++ Text.quoted r.name ++ " has too many arguments")
    pure (true, [], false)
  else if r.parameters < r.expectedParameters then do
    Logging.complain (place ++ ": Rule " ++ Text.quoted r.name ++ " requires an argument")
    pure (true, [], false)
  else
    match r.doc with
    | none | some "" => do
      Logging.warn (place ++ ": No documentation string specified in function " ++
        Text.quoted r.name ++ " (ignored)")
      pure (false, [], false)
    | some doc =>
      match Grammar.readRules doc file r.line with
      | .ok lines => pure (false, lines.map (⟨name, ·⟩), true)
      | .error e => do
        let text ← faulty (Logging.expanded e.message)
        Logging.complain text
        pure (true, [], true)

def checkRulesFrom (file : String) :
    List (String × Routine β) → Building (Bool × List RuleProduction × Bool)
  | [] => pure (false, [], false)
  | (name, r) :: rest => do
    let (bad, lines, used) ← checkRule file name r
    let (moreBad, moreLines, moreUsed) ← checkRulesFrom file rest
    pure (bad || moreBad, lines ++ moreLines, used || moreUsed)

def looksLikeRule (doc : String) : Bool :=
  (doc.splitOn " ")[1]? = some ":"

def warnAttribute (file : String) (name : String) (a : Attribute β) : Building Unit :=
  match a with
  | .value _ =>
    if isRuleName name && name != errorName then
      Logging.warn (Text.quoted name ++ " not defined as a function")
    else pure ()
  | .routine r =>
    if isRuleName name || ['t', '_'].isPrefixOf name.toList then pure ()
    else if r.parameters = r.expectedParameters && looksLikeRule (r.doc.getD "") then
      Logging.warn (r.place file ++ ": Possible grammar rule " ++ Text.quoted name ++
        " defined without p_ prefix")
    else pure ()

def checkRules (d : Declared β) (ds : Declarations β) : Building (Bool × List RuleProduction × Bool) :=
  if d.rules.isEmpty then do
    Logging.complain "no rules of the form p_rulename are defined"
    pure (true, [], false)
  else do
    let found ← checkRulesFrom ds.file d.rules
    ds.attributes.forM fun (name, a) => warnAttribute ds.file name a
    pure found

def warnRedefined (ds : Declarations β) : Building Unit :=
  let found := SourceLine.redefinitions (SourceLine.definedRoutine ruleMark) (ds.source.getD [])
  found.forM fun r => Logging.warn (ds.file ++ ":" ++ Nat.repr r.line ++ ": Function " ++ r.name ++
    " redefined. Previously defined on line " ++ Nat.repr r.previous)

def check (d : Declared β) (ds : Declarations β) (tokens : List String) :
    Building (List PrecedenceLine × List RuleProduction) := do
  d.checkStart
  let badHandler ← d.checkOnError ds.file
  let badTokens ← checkTokens tokens
  let precedence ← d.checkPrecedence
  let (badRules, productions, used) ← d.checkRules ds
  let hasHandler := match d.onError with
    | some (.routine _) => true
    | _ => false
  if hasHandler || used then warnRedefined ds
  match precedence with
  | some lines =>
    if badHandler || badTokens || badRules then throw .refused else pure (lines, productions)
  | none => throw .refused

end Declared

end LispKit.Parser
