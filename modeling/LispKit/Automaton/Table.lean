import LispKit.Automaton.Lookahead
import LispKit.Grammar.First

/-! Action tables: what to do in a state before a symbol, with conflicts resolved by precedence. -/

namespace LispKit

inductive Action where
  | shift (state : Nat)
  | reduce (production : Nat)
  | accept
  deriving DecidableEq, Repr

def Action.code : Action → Int
  | shift n => n
  | reduce n => -n
  | accept => 0

inductive Resolution where
  | shift
  | reduce
  deriving DecidableEq

def Resolution.name : Resolution → String
  | shift => "shift"
  | reduce => "reduce"

/-- The actions of a state by symbol; the absent action is an error that precedence asks for. -/
abbrev ActionRow (S : Type) := Registry S (Option Action)

structure Proposal (S : Type) where
  symbol : S
  item : Item S
  action : Action

inductive ConflictNote (S : Type) where
  | shiftReduce (symbol : S) (resolution : Resolution)
  | reduceReduce (symbol : S) (item : Item S)

structure Draft (S : Type) where
  actions : ActionRow S := {}
  owners : Registry S (Item S) := {}
  proposals : List (Proposal S) := []
  notes : List (ConflictNote S) := []
  shiftReduce : List (S × Resolution) := []
  reduceReduce : List (Nat × Nat) := []
  reductions : Registry Nat Int := {}

inductive TableError where
  | unknownConflict (state : Nat)
  | noLookahead (state : Nat)
  deriving DecidableEq

namespace Draft

variable {S : Type} [DecidableEq S] [Vocabulary S]

open Vocabulary

def propose (d : Draft S) (s : S) (item : Item S) (action : Action) : Draft S :=
  { d with proposals := d.proposals ++ [⟨s, item, action⟩] }

def enter (d : Draft S) (s : S) (item : Item S) (action : Action) : Draft S :=
  { d with actions := d.actions.insert s (some action), owners := d.owners.insert s item }

def refuse (d : Draft S) (s : S) : Draft S :=
  { d with actions := d.actions.insert s none }

def count (d : Draft S) (production : Nat) (change : Int) : Draft S :=
  { d with reductions := d.reductions.update production 0 (· + change) }

def noteShiftReduce (d : Draft S) (s : S) (r : Resolution) : Draft S :=
  { d with notes := d.notes ++ [.shiftReduce s r], shiftReduce := d.shiftReduce ++ [(s, r)] }

def current (d : Draft S) (s : S) : Option Action :=
  (d.actions.get? s).join

def productionPrecedence (g : Grammar S) (number : Nat) : Precedence :=
  match g.production? number with
  | none => .default
  | some p => p.precedence

def productionLine (g : Grammar S) (number : Nat) : Int :=
  match g.production? number with
  | none => 0
  | some p => p.line

def reduceOverShift (g : Grammar S) (d : Draft S) (s : S) (item : Item S) : Draft S :=
  let shift := g.precedenceOf s
  let rule := productionPrecedence g item.number
  if shift.level < rule.level || (shift.level = rule.level && rule.associativity = .left) then
    let d := d.enter s item (.reduce item.number)
    let d := if shift.level = 0 && rule.level = 0 then d.noteShiftReduce s .reduce else d
    d.count item.number 1
  else if shift.level = rule.level && rule.associativity = .nonassoc then d.refuse s
  else if rule.level = 0 then d.noteShiftReduce s .shift
  else d

def reduceOverReduce (g : Grammar S) (d : Draft S) (s : S) (item : Item S) (old : Nat) : Draft S :=
  let (d, chosen, rejected) :=
    if productionLine g item.number < productionLine g old then
      (((d.enter s item (.reduce item.number)).count item.number 1).count old (-1), item.number, old)
    else (d, old, item.number)
  let d := { d with reduceReduce := d.reduceReduce ++ [(chosen, rejected)] }
  { d with notes := d.notes ++ [.reduceReduce s (d.owners.getD s item)] }

def addReduction (g : Grammar S) (state : Nat) (item : Item S) (d : Draft S) (s : S) :
    Draft S × Option TableError :=
  let d := d.propose s item (.reduce item.number)
  match d.current s with
  | none => ((d.enter s item (.reduce item.number)).count item.number 1, none)
  | some (.shift _) => (reduceOverShift g d s item, none)
  | some (.reduce old) => (reduceOverReduce g d s item old, none)
  | some .accept => (d, some (.unknownConflict state))

def shiftOverReduce (g : Grammar S) (d : Draft S) (s : S) (item : Item S) (target : Nat) : Draft S :=
  let shift := g.precedenceOf s
  let owner := (d.owners.getD s item).number
  let rule := productionPrecedence g owner
  if rule.level < shift.level || (shift.level = rule.level && rule.associativity = .right) then
    let d := (d.count owner (-1)).enter s item (.shift target)
    if rule.level = 0 then d.noteShiftReduce s .shift else d
  else if shift.level = rule.level && rule.associativity = .nonassoc then d.refuse s
  else if shift.level = 0 && rule.level = 0 then d.noteShiftReduce s .reduce
  else d

def addShift (g : Grammar S) (state : Nat) (item : Item S) (d : Draft S) (s : S) (target : Nat) :
    Draft S × Option TableError :=
  let d := d.propose s item (.shift target)
  match d.current s with
  | none => (d.enter s item (.shift target), none)
  | some (.shift _) => (d, none)
  | some (.reduce _) => (shiftOverReduce g d s item target, none)
  | some .accept => (d, some (.unknownConflict state))

def addReductions (g : Grammar S) (state : Nat) (item : Item S) :
    List S → Draft S → Draft S × Option TableError
  | [], d => (d, none)
  | s :: rest, d =>
    match addReduction g state item d s with
    | (d, some e) => (d, some e)
    | (d, none) => addReductions g state item rest d

/-- Treats one item: a complete one is reduced before its lookaheads, another shifts its next symbol. -/
def addItem (g : Grammar S) (c : Collection S) (lookaheads : List (Lookahead.Entry S)) (state : Nat)
    (item : Item S) (d : Draft S) : Draft S × Option TableError :=
  match item.next? with
  | none =>
    if item.name = startMark then (d.enter endMark item .accept, none)
    else
      match Lookahead.find? lookaheads state item with
      | none => (d, some (.noLookahead state))
      | some symbols => addReductions g state item symbols d
  | some s =>
    if g.isTerminal s then
      match c.goto? state s with
      | some target => addShift g state item d s target
      | none => (d, none)
    else (d, none)

def addItems (g : Grammar S) (c : Collection S) (lookaheads : List (Lookahead.Entry S)) (state : Nat) :
    List (Item S) → Draft S → Draft S × Option TableError
  | [], d => (d, none)
  | item :: rest, d =>
    match addItem g c lookaheads state item d with
    | (d, some e) => (d, some e)
    | (d, none) => addItems g c lookaheads state rest d

end Draft

structure TableRow (S : Type) where
  items : List (Item S)
  draft : Draft S
  gotos : List (S × Nat)

/-- A table, or as much of it as was built before an error: the rows, and the items and the draft of the
state that could not be finished. -/
structure Table (S : Type) where
  rows : List (TableRow S) := []
  stopped : Option (List (Item S) × Draft S × TableError) := none

namespace Table

variable {S : Type} [DecidableEq S] [Vocabulary S]

def gotosOf (g : Grammar S) (c : Collection S) (state : Nat) (items : List (Item S)) : List (S × Nat) :=
  ((Collection.symbolsOf items).filter g.isNonterminal).filterMap fun s =>
    (c.goto? state s).map (s, ·)

def buildRows (g : Grammar S) (c : Collection S) (lookaheads : List (Lookahead.Entry S)) :
    Nat → List (ItemSet S) → Table S → Table S
  | _, [], t => t
  | state, st :: rest, t =>
    match Draft.addItems g c lookaheads state st.items {} with
    | (d, some e) => { t with stopped := some (st.items, d, e) }
    | (d, none) =>
      buildRows g c lookaheads (state + 1) rest
        { t with rows := t.rows ++ [⟨st.items, d, gotosOf g c state st.items⟩] }

def build (g : Grammar S) (augmented : Production S) : Table S :=
  let c := Collection.build g augmented
  let lookaheads := match augmented.symbols with
    | start :: _ => Lookahead.compute g c start
    | [] => []
  buildRows g c lookaheads 0 c.states {}

def error? (t : Table S) : Option TableError :=
  t.stopped.map fun s => s.2.2

def reductionCounts (t : Table S) : List (Registry Nat Int) :=
  t.rows.map (fun r => r.draft.reductions) ++ t.stopped.toList.map fun s => s.2.1.reductions

def shiftReduceConflicts (t : Table S) : List (Nat × S × Resolution) :=
  t.rows.zipIdx.flatMap fun (r, state) => r.draft.shiftReduce.map (state, ·)

def reduceReduceConflicts (t : Table S) : List (Nat × Nat × Nat) :=
  t.rows.zipIdx.flatMap fun (r, state) => r.draft.reduceReduce.map (state, ·)

end Table

inductive BuildFailure where
  | unknownConflict (state : Nat)
  | fault (f : Fault)
  deriving DecidableEq

def BuildFailure.message : BuildFailure → String
  | unknownConflict state => "Unknown conflict in state " ++ Nat.repr state
  | fault f => f.message

def TableError.failure : TableError → BuildFailure
  | unknownConflict state => .unknownConflict state
  | noLookahead state => .fault (.missingKey (Nat.repr state))

namespace Grammar

variable {S : Type} [DecidableEq S] [Vocabulary S]

def recordReductions (g : Grammar S) (t : Table S) : Grammar S :=
  { g with reductions := t.reductionCounts.foldl (fun total row =>
      row.entries.foldl (fun total e => total.update e.1 0 (· + e.2)) total) g.reductions }

def buildTable (g : Grammar S) : Except BuildFailure Unit × Table S × Grammar S :=
  match g.augmented with
  | none => (.error (.fault (.unsized "NoneType")), {}, g)
  | some augmented =>
    match g.computeFirst with
    | (.error f, g) => (.error (.fault f), {}, g)
    | (.ok (), withFirst) =>
      match withFirst.computeFollow none with
      | (.error f, g) => (.error (.fault f), {}, g)
      | (.ok (), withFollow) =>
        let t := Table.build g augmented
        let counted := withFollow.recordReductions t
        match t.error? with
        | some e => (.error e.failure, t, counted)
        | none => (.ok (), t, counted)

end Grammar

end LispKit
