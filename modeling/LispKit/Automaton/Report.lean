import LispKit.Automaton.Table

/-! The written report on a table: the items, actions and conflicts of every state. -/

namespace LispKit.Report

variable {S : Type} [DecidableEq S] [Vocabulary S]

open Vocabulary

def itemLine (i : Item S) : String :=
  "    (" ++ Nat.repr i.number ++ ") " ++ i.text

def noteLine : ConflictNote S → String
  | .shiftReduce s r => "  ! shift/reduce conflict for " ++ label s ++ " resolved as " ++ r.name
  | .reduceReduce s i =>
    "  ! reduce/reduce conflict for " ++ label s ++ " resolved using rule " ++ Nat.repr i.number ++
      " (" ++ i.text ++ ")"

def proposalText (p : Proposal S) : String :=
  match p.action with
  | .shift n => "shift and go to state " ++ Nat.repr n
  | .reduce n => "reduce using rule " ++ Nat.repr n ++ " (" ++ p.item.text ++ ")"
  | .accept => "accept"

def isChosen (d : Draft S) (p : Proposal S) : Bool :=
  match d.owners.get? p.symbol with
  | some i => i.same p.item
  | none => false

def chosenLine (p : Proposal S) : String :=
  "    " ++ Text.padRight 15 (label p.symbol) ++ " " ++ proposalText p

def rejectedLine (p : Proposal S) : String :=
  "  ! " ++ Text.padRight 15 (label p.symbol) ++ " [ " ++ proposalText p ++ " ]"

def rejected (d : Draft S) : List (Proposal S) :=
  let chosen := d.proposals.filter (isChosen d)
  let key (p : Proposal S) := (p.symbol, proposalText p)
  let fresh := d.proposals.foldl (fun (seen, kept) p =>
    if isChosen d p || seen.contains (key p) then (seen, kept) else (seen ++ [key p], kept ++ [p]))
    (chosen.map key, [])
  fresh.2

def gotoLine (s : S × Nat) : String :=
  "    " ++ Text.padRight 30 (label s.1) ++ " shift and go to state " ++ Nat.repr s.2

def headLines (state : Nat) (items : List (Item S)) : List String :=
  ["", "state " ++ Nat.repr state, ""] ++ items.map itemLine ++ [""]

def rowLines (state : Nat) (row : TableRow S) : List String :=
  let d := row.draft
  let refused := (rejected d).map rejectedLine
  headLines state row.items ++ d.notes.map noteLine ++
    (d.proposals.filter (isChosen d)).map chosenLine ++ [""] ++
    (if refused.isEmpty then [] else refused ++ [""]) ++ row.gotos.map gotoLine

/-- The lines for all states; a state that could not be finished has its items and conflicts only. -/
def tableLines (t : Table S) : List String :=
  (t.rows.zipIdx.flatMap fun (row, state) => rowLines state row) ++
    t.stopped.toList.flatMap fun (items, d, _) =>
      headLines t.rows.length items ++ d.notes.map noteLine

end LispKit.Report
