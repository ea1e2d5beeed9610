import LispKit.Automaton.Table
import LispKit.Parser.Display
import LispKit.Parser.Symbol

/-! The parsing engine: shifts, reductions and error recovery, one step at a time. -/

namespace LispKit.Parser

/-- The tables that a parser runs on, by state. -/
structure Tables (S : Type) where
  actions : List (ActionRow S)
  gotos : List (List (S × Nat))
  productions : List (Production S)
  defaults : List (Option Nat)

namespace Tables

variable {S : Type} [DecidableEq S]

def defaultOf (row : ActionRow S) : Except Fault (Option Nat) :=
  match row.values with
  | [some (.reduce n)] => .ok (some n)
  | [none] => .error (.unordered "<" "NoneType" "int")
  | _ => .ok none

def ofTable (productions : List (Production S)) (t : Table S) : Except Fault (Tables S) := do
  let rows := t.rows.map fun r => r.draft.actions
  let defaults ← rows.mapM defaultOf
  .ok ⟨rows, t.rows.map TableRow.gotos, productions, defaults⟩

def ofGrammar [Vocabulary S] (g : Grammar S) : Tables S :=
  match ofTable g.all g.buildTable.2.1 with
  | .ok t => t
  | .error _ => ⟨[], [], [], []⟩

/-- Tables without reductions that are made before the next token is read. -/
def withoutDefaults (t : Tables S) : Tables S :=
  { t with defaults := [] }

def default? (t : Tables S) (state : Nat) : Option Nat :=
  (t.defaults[state]?).join

def action? (t : Tables S) (state : Nat) (s : S) : Option Action :=
  (((t.actions[state]?).getD {}).get? s).join

def goto? (t : Tables S) (state : Nat) (s : S) : Option Nat :=
  ((t.gotos[state]?).getD []).lookup s

end Tables

/-- A reduction as a rule sees it: the new symbol, the symbols of the right side and the stack below. -/
structure Reduction (S V : Type) where
  production : Production S
  symbol : StackSymbol S V
  arguments : List (StackSymbol S V)
  below : List (StackSymbol S V)

/-- How a rule ends: with the new symbol, by asking for error recovery, or with a failure. -/
inductive RuleReply (S V E : Type) where
  | done (symbol : StackSymbol S V) (recovered : Bool)
  | raised
  | failed (e : E)

/-- What an error function asks for. If it has recovered, the parser goes on with its token. -/
structure ErrorReply (S V : Type) where
  token : Option (StackSymbol S V) := none
  recovered : Bool := false
  restarted : Bool := false

/-- What surrounds a parser: the input, the rules, the error function and how values are shown. -/
structure Host (S V σ E : Type) where
  nextToken : σ → Except E (Option (StackSymbol S V)) × σ
  place : σ → Int × Int
  apply : Reduction S V → σ → RuleReply S V E × σ
  onError : Option (Option (StackSymbol S V) → σ → Except E (ErrorReply S V) × σ)
  display : V → Except Fault (String × String)
  nothing : V
  errorValue : V
  ofToken : StackSymbol S V → V

structure Mode where
  tracing : Bool := false
  tracking : Bool := false

structure Config (S V σ : Type) where
  states : List Nat
  symbols : List (StackSymbol S V)
  state : Nat
  lookahead : Option (StackSymbol S V)
  pushback : List (Option (StackSymbol S V))
  errorCount : Nat
  settled : Bool
  log : String
  host : σ

inductive ParseError (E : Type) where
  | fault (f : Fault)
  | host (e : E)

inductive Progress (S V σ E : Type) where
  | running (c : Config S V σ)
  | finished (value : Option V) (c : Config S V σ)
  | failed (e : ParseError E) (c : Config S V σ)

def recoveryLength : Nat := 3

section

variable {S V σ E : Type} [DecidableEq S] [Vocabulary S]

open Vocabulary

def Config.start (host : σ) (settled : Bool) : Config S V σ :=
  { states := [0], symbols := [.atEnd], state := 0, lookahead := none, pushback := []
    errorCount := 0, settled := settled, log := "", host := host }

/-- Adds a line to the log of a traced run. The line may be impossible to write. -/
def traced (m : Mode) (line : Except Fault String) (c : Config S V σ)
    (continue_ : Config S V σ → Progress S V σ E) : Progress S V σ E :=
  if m.tracing then
    match line with
    | .error f => .failed (.fault f) c
    | .ok text => continue_ { c with log := c.log ++ text ++ "\n" }
  else continue_ c

def shownSymbol (h : Host S V σ E) (s : StackSymbol S V) : Except Fault String :=
  if s.isToken then do
    let value ← s.getValue
    let (_, written) ← h.display value
    let line ← s.getLine
    let position ← s.getPosition
    .ok ("LexToken(" ++ label s.type ++ "," ++ written ++ "," ++ Text.decimal line ++ "," ++
      Text.decimal position ++ ")")
  else .ok (label s.type)

def shownLookahead (h : Host S V σ E) : Option (StackSymbol S V) → Except Fault String
  | none => .ok "None"
  | some s => shownSymbol h s

def stackText (h : Host S V σ E) (c : Config S V σ) : Except Fault String := do
  let ahead ← shownLookahead h c.lookahead
  let types := " ".intercalate ((c.symbols.reverse.drop 1).map fun s => label s.type)
  .ok (String.ofList (Text.trimLeft (types ++ " . " ++ ahead).toList))

def shownEntry (h : Host S V σ E) (s : StackSymbol S V) : Except Fault String := do
  let value ← s.getValue
  let (type, written) ← h.display value
  .ok (Display.entry type written)

def shownResult (h : Host S V σ E) (value : V) : Except Fault String := do
  let (type, written) ← h.display value
  .ok (Display.result type written)

def gotoOf (t : Tables S) (states : List Nat) (name : S) : Except Fault Nat :=
  match states with
  | [] => .error .listRange
  | top :: _ =>
    match t.goto? top name with
    | none => .error (.missingKey (Text.quoted (label name)))
    | some s => .ok s

def reduceLine (h : Host S V σ E) (t : Tables S) (p : Production S) (c : Config S V σ) :
    Except Fault String := do
  let size := p.symbols.length
  let entries ← (c.symbols.take size).reverse.mapM (shownEntry h)
  let target ← gotoOf t (c.states.drop size) p.name
  .ok ("Action : Reduce rule [" ++ p.text ++ "] with [" ++ ",".intercalate entries ++
    "] and goto state " ++ Nat.repr target)

/-- The lookahead: the one at hand, one that was pushed back, or the next token. What is not there
is the end of the input. -/
def fetch (h : Host S V σ E) (c : Config S V σ) : Except E (StackSymbol S V) × Config S V σ :=
  match c.lookahead, c.pushback with
  | some s, _ => (.ok s, c)
  | none, s :: rest =>
    let s := s.getD .atEnd
    (.ok s, { c with lookahead := some s, pushback := rest })
  | none, [] =>
    match h.nextToken c.host with
    | (.error e, host) => (.error e, { c with host := host })
    | (.ok s, host) =>
      let s := s.getD .atEnd
      (.ok s, { c with lookahead := some s, host := host })

def shift (m : Mode) (s : StackSymbol S V) (target : Nat) (c : Config S V σ) : Progress S V σ E :=
  traced m (.ok ("Action : Shift and goto state " ++ Nat.repr target)) c fun c =>
    .running { c with
      states := target :: c.states
      state := target
      symbols := s :: c.symbols
      lookahead := none
      errorCount := c.errorCount - 1 }

/-- The symbol that a reduction makes, placed if places are tracked. -/
def newSymbol (h : Host S V σ E) (m : Mode) (p : Production S) (arguments : List (StackSymbol S V))
    (c : Config S V σ) : Except Fault (StackSymbol S V) :=
  let s : StackSymbol S V := { type := p.name, value := some h.nothing }
  if m.tracking then
    if p.symbols.isEmpty then
      let (line, position) := h.place c.host
      .ok { s with line := some line, position := some position }
    else
      match arguments.head?, arguments.getLast? with
      | some first, some last => s.spanning first last
      | _, _ => .error .listRange
  else .ok s

def pushReduced (t : Tables S) (s : StackSymbol S V) (name : S) (c : Config S V σ) :
    Progress S V σ E :=
  match gotoOf t c.states name with
  | .error f => .failed (.fault f) c
  | .ok target =>
    .running { c with states := target :: c.states, state := target, symbols := s :: c.symbols }

def backOut (h : Host S V σ E) (s : StackSymbol S V) (c : Config S V σ) : Progress S V σ E :=
  match c.states with
  | [] => .failed (.fault .emptyPop) c
  | [_] => .failed (.fault .listRange) c
  | _ :: state :: rest =>
    .running { c with
      states := state :: rest
      state := state
      pushback := c.lookahead :: c.pushback
      lookahead := some { s with type := errorMark, value := some h.errorValue }
      errorCount := recoveryLength
      settled := false }

def reduce (h : Host S V σ E) (t : Tables S) (m : Mode) (p : Production S) (c : Config S V σ) :
    Progress S V σ E :=
  traced m (reduceLine h t p c) c fun c =>
    let size := p.symbols.length
    let arguments := (c.symbols.take size).reverse
    let below := c.symbols.drop size
    match newSymbol h m p arguments c with
    | .error f => .failed (.fault f) c
    | .ok s =>
      let (reply, host) := h.apply ⟨p, s, arguments, below⟩ c.host
      let c := { c with host := host }
      match reply with
      | .failed e => .failed (.host e) c
      | .raised => backOut h s { c with symbols := arguments.dropLast.reverse ++ below }
      | .done s recovered =>
        let c := { c with
          symbols := below
          states := c.states.drop size
          settled := c.settled || recovered }
        traced m ((shownResult h (s.value.getD h.nothing)).map ("Result : " ++ ·)) c
          (pushReduced t s p.name)

def accept (h : Host S V σ E) (m : Mode) (c : Config S V σ) : Progress S V σ E :=
  match c.symbols with
  | [] => .failed (.fault .listRange) c
  | top :: _ =>
    let line := (shownResult h (top.value.getD h.nothing)).map
      ("Done   : Returning " ++ · ++ "\nPLY: PARSE DEBUG END")
    traced m line c (.finished top.value)

def errorSymbol (h : Host S V σ E) (s : StackSymbol S V) : StackSymbol S V :=
  { type := errorMark, value := some (h.ofToken s)
    line := s.line, position := s.position, endLine := s.line, endPosition := s.position }

/-- Goes on after an error that nobody has settled: discards the stack or the input, symbol by symbol,
until the error symbol can be shifted. -/
def panicStep (h : Host S V σ E) (m : Mode) (ahead : StackSymbol S V) (c : Config S V σ) :
    Progress S V σ E :=
  if c.states.length ≤ 1 && ahead.type != endMark then
    .running { c with lookahead := none, state := 0, pushback := [] }
  else if ahead.type = endMark then .finished none c
  else if ahead.type ≠ errorMark then
    match c.symbols with
    | [] => .failed (.fault .listRange) c
    | top :: rest =>
      if top.type = errorMark then
        match (if m.tracking then top.extendedTo ahead else .ok top) with
        | .error f => .failed (.fault f) c
        | .ok top => .running { c with symbols := top :: rest, lookahead := none }
      else
        .running { c with
          lookahead := some (errorSymbol h ahead), pushback := some ahead :: c.pushback }
  else
    match c.symbols with
    | [] => .failed (.fault .emptyPop) c
    | top :: rest =>
      match (if m.tracking then ahead.placedAt top else .ok ahead) with
      | .error f => .failed (.fault f) c
      | .ok ahead =>
        match c.states with
        | [] => .failed (.fault .emptyPop) c
        | [_] => .failed (.fault .listRange) c
        | _ :: state :: more =>
          .running { c with
            symbols := rest, states := state :: more, state := state, lookahead := some ahead }

def complaint (s : StackSymbol S V) : String :=
  match s.line with
  | some 0 | none => "yacc: Syntax error, token=" ++ label s.type
  | some n =>
    "yacc: Syntax error at line " ++ Text.decimal n ++ ", token=" ++ label s.type ++ "\n"

def report (h : Host S V σ E) (m : Mode) (ahead : StackSymbol S V) (c : Config S V σ) :
    Progress S V σ E :=
  let c := { c with errorCount := recoveryLength, settled := false }
  let offending := if ahead.type = endMark then none else some ahead
  match h.onError with
  | some f =>
    match f offending c.host with
    | (.error e, host) => .failed (.host e) { c with host := host }
    | (.ok reply, host) =>
      let c := { c with host := host }
      let c := if reply.restarted then { c with states := [0], symbols := [.atEnd] } else c
      if reply.recovered then .running { c with settled := true, lookahead := reply.token }
      else panicStep h m ahead c
  | none =>
    match offending with
    | none => .finished none { c with log := c.log ++ "yacc: Parse error in input. EOF\n" }
    | some s => panicStep h m ahead { c with log := c.log ++ complaint s }

def recover (h : Host S V σ E) (m : Mode) (ahead : StackSymbol S V) (c : Config S V σ) :
    Progress S V σ E :=
  traced m ((stackText h c).map ("ERROR: Error  : " ++ ·)) c fun c =>
    if c.errorCount = 0 || c.settled then report h m ahead c
    else panicStep h m ahead { c with errorCount := recoveryLength }

def reduceBy (h : Host S V σ E) (t : Tables S) (m : Mode) (number : Nat) (c : Config S V σ) :
    Progress S V σ E :=
  match t.productions[number]? with
  | none => .failed (.fault .listRange) c
  | some p => reduce h t m p c

def act (h : Host S V σ E) (t : Tables S) (m : Mode) (ahead : StackSymbol S V) (c : Config S V σ) :
    Progress S V σ E :=
  match t.action? c.state ahead.type with
  | some (.shift target) => shift m ahead target c
  | some (.reduce number) => reduceBy h t m number c
  | some .accept => accept h m c
  | none => recover h m ahead c

def step (h : Host S V σ E) (t : Tables S) (m : Mode) (c : Config S V σ) : Progress S V σ E :=
  traced m (.ok ("State  : " ++ Nat.repr c.state)) c fun c =>
    let stackLine (c : Config S V σ) := (stackText h c).map ("Stack  : " ++ ·)
    match t.default? c.state with
    | some number =>
      traced m (.ok ("Defaulted state " ++ Nat.repr c.state ++ ": Reduce using " ++ Nat.repr number)) c
        fun c => traced m (stackLine c) c (reduceBy h t m number)
    | none =>
      match fetch h c with
      | (.error e, c) => .failed (.host e) c
      | (.ok ahead, c) => traced m (stackLine c) c (act h t m ahead)

/-- At most the given number of steps; a run that is still going is returned as such. -/
def run (h : Host S V σ E) (t : Tables S) (m : Mode) : Nat → Config S V σ → Progress S V σ E
  | 0, c => .running c
  | n + 1, c =>
    match step h t m c with
    | .running c => run h t m n c
    | p => p

def parse (h : Host S V σ E) (t : Tables S) (m : Mode) (steps : Nat) (settled : Bool) (host : σ) :
    Progress S V σ E :=
  traced m (.ok "PLY: PARSE DEBUG START") (.start host settled) (run h t m steps)

end

def Progress.config {S V σ E : Type} : Progress S V σ E → Config S V σ
  | running c => c
  | finished _ c => c
  | failed _ c => c

end LispKit.Parser
