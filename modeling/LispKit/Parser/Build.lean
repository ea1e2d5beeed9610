import LispKit.Automaton.Report
import LispKit.Grammar.Inspect
import LispKit.Parser.Declared
import LispKit.Parser.Engine

/-! Building a parser from declarations: the grammar, its checks, the table, and what is logged on the way. -/

namespace LispKit.Parser

structure BuildOptions where
  debug : Bool := true
  start : Option Datum := none
  checkRecursion : Bool := true
  missingFile : Option String := none

/-- A parser: its grammar and tables. The table report is in the details of the log. -/
structure Built where
  grammar : Grammar String
  table : Table String
  tables : Tables String

namespace Build

variable {β : Type}

def declarePrecedences : List PrecedenceLine → Grammar String → Building (Grammar String)
  | [], g => pure g
  | p :: rest, g =>
    match g.setPrecedence p.symbol p.associativity p.level with
    | .ok g => declarePrecedences rest g
    | .error e => do
      Logging.warn e.message
      declarePrecedences rest g

def declareProductions : List Declared.RuleProduction → Bool → Grammar String →
    Building (Bool × Grammar String)
  | [], bad, g => pure (bad, g)
  | p :: rest, bad, g =>
    match g.declare p.line.name p.line.symbols p.line.place p.rule with
    | (.ok (), g) => declareProductions rest bad g
    | (.error (.fault f), _) => throw (.fault f)
    | (.error e, g) => do
      Logging.complain e.message
      declareProductions rest true g

/-- The start symbol that a datum names: false data name none, and only a text can name a symbol. -/
def startName (start : Option Datum) : Except Grammar.DeclareFailure (Option String) :=
  match start.filter Datum.isTrue with
  | none => .ok none
  | some (.text s) => .ok (some s)
  | some (.list _) => .error (.fault (.unhashable "list"))
  | some (.record _ _) => .error (.fault (.unhashable "dict"))
  | some d => .error (.invalid (.undefinedStart d.written))

def declareStart (start : Option Datum) (g : Grammar String) : Building (Bool × Grammar String) :=
  match (startName start).bind g.declareStart with
  | .ok g => pure (false, g)
  | .error (.fault f) => throw (.fault f)
  | .error e => do
    let text ← faulty (Logging.expanded e.message)
    Logging.complain text
    pure (true, g)

def detail (opts : BuildOptions) (level : Level) (lines : List String) : Building Unit :=
  if opts.missingFile.isSome then pure () else Logging.details level lines

def complainUndefined (g : Grammar String) : Building Bool := do
  let found := g.undefinedSymbols
  found.forM fun (s, p) => Logging.complain (p.file ++ ":" ++ Text.decimal p.line ++ ": Symbol " ++
    Text.quoted s ++ " used, but not defined as a token or a rule")
  pure (!found.isEmpty)

def reportUnusedTerminals (opts : BuildOptions) (unused : List String) : Building Unit :=
  if unused.isEmpty then pure ()
  else do
    detail opts .plain ["", "Unused terminals:", ""]
    unused.forM fun t => do
      Logging.warn ("Token " ++ Text.quoted t ++ " defined, but not used")
      detail opts .plain ["    " ++ t]

def grammarLines (g : Grammar String) : List String :=
  ["", "Grammar", ""] ++ g.all.map fun p =>
    "Rule " ++ Text.padRight 5 (Nat.repr p.number) ++ " " ++ p.text

def counted (n : Nat) (one many : String) : Building Unit :=
  if n = 0 then pure ()
  else if n = 1 then Logging.warn one
  else Logging.warn many

def warnUnused (g : Grammar String) (terminals : List String) : Building Unit := do
  let rules := g.unusedRules
  rules.forM fun p => Logging.warn (p.file ++ ":" ++ Text.decimal p.line ++ ": Rule " ++
    Text.quoted p.name ++ " defined, but not used")
  counted terminals.length "There is 1 unused token"
    ("There are " ++ Nat.repr terminals.length ++ " unused tokens")
  counted rules.length "There is 1 unused rule"
    ("There are " ++ Nat.repr rules.length ++ " unused rules")

def usesLines (title : String) (uses : Registry String (List Nat)) : List String :=
  ["", title ++ ", with rules where they appear", ""] ++
    (Declared.sortTexts uses.keys).map fun s =>
      Text.padRight 20 s ++ " : " ++ " ".intercalate ((uses.getD s []).map Nat.repr)

def checkUseful (opts : BuildOptions) (g : Grammar String) : Building Bool :=
  if opts.checkRecursion then do
    let unreached ← faulty g.unreachableSymbols
    unreached.forM fun s => Logging.warn ("Symbol " ++ Text.quoted s ++ " is unreachable")
    g.endless.forM fun s =>
      Logging.complain ("Infinite recursion detected for symbol " ++ Text.quoted s)
    pure (!g.endless.isEmpty)
  else pure false

def complainPrecedence (g : Grammar String) : Building Bool := do
  g.unusedPrecedence.forM fun (s, a) => Logging.complain ("Precedence rule " ++
    Text.quoted a.name ++ " defined for unknown symbol " ++ Text.quoted s)
  pure (!g.unusedPrecedence.isEmpty)

def productionText (g : Grammar String) (n : Nat) : String :=
  (g.production? n).elim "" Production.text

def warnBoth (opts : BuildOptions) (line : String) : Building Unit := do
  detail opts .warning [line]
  Logging.warn line

def reportReduceReduce (opts : BuildOptions) (g : Grammar String)
    (conflicts : List (Nat × Nat × Nat)) : Building Unit :=
  conflicts.forM fun (state, chosen, rejected) => do
    warnBoth opts ("reduce/reduce conflict in state " ++ Nat.repr state ++ " resolved using rule (" ++
      productionText g chosen ++ ")")
    warnBoth opts ("rejected rule (" ++ productionText g rejected ++ ") in state " ++ Nat.repr state)

def reportConflicts (opts : BuildOptions) (g : Grammar String) (t : Table String) : Building Unit := do
  let sr := t.shiftReduceConflicts
  let rr := t.reduceReduceConflicts
  counted sr.length "1 shift/reduce conflict" (Nat.repr sr.length ++ " shift/reduce conflicts")
  counted rr.length "1 reduce/reduce conflict" (Nat.repr rr.length ++ " reduce/reduce conflicts")
  if sr.isEmpty && rr.isEmpty then pure ()
  else do
    detail opts .warning (["", "Conflicts:", ""] ++ sr.map fun (state, s, r) =>
      "shift/reduce conflict for " ++ s ++ " in state " ++ Nat.repr state ++ " resolved as " ++ r.name)
    reportReduceReduce opts g (distinct rr)
    let neverReduced := (distinct (rr.map fun (_, _, rejected) => rejected)).filter fun n =>
      g.reductions.getD n 0 = 0
    neverReduced.forM fun n => warnBoth opts ("Rule (" ++ productionText g n ++ ") is never reduced")

def openDetails (opts : BuildOptions) : Building Unit :=
  match opts.missingFile with
  | none => pure ()
  | some file =>
    if opts.debug then do
      let text ← faulty (Logging.expanded ("Couldn't open " ++ Text.quoted file ++
        ". [Errno 2] No such file or directory: " ++ Text.quoted file))
      Logging.warn text
    else pure ()

def grammarOf (d : Declared β) (tokens : List String) (precedences : List PrecedenceLine)
    (productions : List Declared.RuleProduction) : Building (Grammar String) := do
  let g ← declarePrecedences precedences (Grammar.ofTerminals tokens)
  let (badProduction, g) ← declareProductions productions false g
  let (badStart, g) ← declareStart d.start g
  if badProduction || badStart then throw .refused
  pure g

def checkGrammar (opts : BuildOptions) (g : Grammar String) : Building Unit := do
  let undefined ← complainUndefined g
  let unused := g.unusedTerminals
  reportUnusedTerminals opts unused
  if opts.debug then detail opts .plain (grammarLines g)
  warnUnused g unused
  if opts.debug then
    detail opts .plain (usesLines "Terminals" g.terminals ++ usesLines "Nonterminals" g.nonterminals ++ [""])
  let endless ← checkUseful opts g
  let unknown ← complainPrecedence g
  if undefined || endless || unknown then throw .refused

def tableOf (opts : BuildOptions) (g : Grammar String) : Building (Table String × Grammar String) := do
  let (outcome, t, g) := g.buildTable
  detail opts .plain (Report.tableLines t)
  match outcome with
  | .ok () => pure (t, g)
  | .error (.unknownConflict state) => throw (.unknownConflict state)
  | .error (.fault f) => throw (.fault f)

def build (ds : Declarations β) (opts : BuildOptions) : Building Built := do
  let d ← Declared.read ds opts.start
  match d.tokens with
  | none => throw .refused
  | some tokens =>
    openDetails opts
    detail opts .plain ["Created by PLY (http://www.dabeaz.com/ply)"]
    let (precedences, productions) ← d.check ds tokens
    if d.onError.isNone then Logging.warn "no p_error() function is defined"
    let g ← grammarOf d tokens precedences productions
    checkGrammar opts g
    let (t, g) ← tableOf opts g
    if opts.debug then reportConflicts opts g t
    let tables ← faulty (Tables.ofTable g.all t)
    pure ⟨g, t, tables⟩

end Build

def build {β : Type} (ds : Declarations β) (opts : BuildOptions) : Except BuildError Built × Logs :=
  (Build.build ds opts).run.run {}

end LispKit.Parser
