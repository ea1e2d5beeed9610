import LispKit.Fault
import LispKit.Grammar.Basic

/-! First and following symbols, computed by adding symbols until nothing changes. -/

namespace LispKit.Grammar

variable {S : Type} [DecidableEq S] [Vocabulary S]

open Vocabulary

def merge (xs ys : List S) : List S :=
  ys.foldl (fun seen y => if seen.contains y then seen else seen ++ [y]) xs

def firstOfFrom (first : S → List S) (found : List S) : List S → List S
  | [] => found ++ [emptyMark]
  | s :: rest =>
    let here := first s
    let found := merge found (here.filter (· != emptyMark))
    if here.contains emptyMark then firstOfFrom first found rest else found

def firstOf (first : S → List S) (symbols : List S) : List S :=
  firstOfFrom first [] symbols

def consulted (first : S → List S) : List S → List S
  | [] => []
  | s :: rest => if (first s).contains emptyMark then s :: consulted first rest else [s]

def unknownSymbol (s : S) : Fault :=
  .missingKey (Text.quoted (label s))

def firstOf? (table : Registry S (List S)) (symbols : List S) : Except Fault (List S) :=
  let first := fun s => table.getD s []
  match (consulted first symbols).find? fun s => !table.contains s with
  | some s => .error (unknownSymbol s)
  | none => .ok (firstOf first symbols)

def firstStart (g : Grammar S) : Registry S (List S) :=
  let table : Registry S (List S) := g.terminals.keys.foldl (fun r t => r.insert t [t]) {}
  let table := table.insert endMark [endMark]
  g.nonterminals.keys.foldl (fun r n => r.insert n []) table

def firstAt (table : Registry S (List S)) (p : Production S) : Registry S (List S) :=
  table.update p.name [] (merge · (firstOf (fun s => table.getD s []) p.symbols))

def firstRound (g : Grammar S) (names : List S) (table : Registry S (List S)) : Registry S (List S) :=
  (names.flatMap g.productionsOf).foldl firstAt table

def volume (table : Registry S (List S)) : Nat :=
  table.values.foldr (fun xs n => xs.length + n) 0

def saturate (round : Registry S (List S) → Registry S (List S)) :
    Nat → Registry S (List S) → Registry S (List S)
  | 0, table => table
  | n + 1, table =>
    let next := round table
    if volume next = volume table then next else saturate round n next

def roundLimit (g : Grammar S) : Nat :=
  let symbols := g.terminals.entries.length + g.nonterminals.entries.length + 2
  symbols * symbols + 1

def computeFirst (g : Grammar S) : Except Fault Unit × Grammar S :=
  if !g.first.isEmpty then (.ok (), g)
  else
    let names := g.nonterminals.keys
    match names.find? fun n => !g.isDefined n with
    | some n =>
      let before := names.takeWhile g.isDefined
      (.error (unknownSymbol n), { g with first := firstRound g before (firstStart g) })
    | none =>
      (.ok (), { g with first := saturate (firstRound g names) g.roundLimit (firstStart g) })

def followAt (g : Grammar S) (p : Production S) (s : S) (rest : List S)
    (table : Registry S (List S)) : Except Fault (Registry S (List S)) := do
  let ahead ← firstOf? g.first rest
  let table := table.update s [] (merge · (ahead.filter (· != emptyMark)))
  if ahead.contains emptyMark || rest.isEmpty then
    .ok (table.update s [] (merge · (table.getD p.name [])))
  else .ok table

def followAlong (g : Grammar S) (p : Production S) :
    List S → Registry S (List S) → Option Fault × Registry S (List S)
  | [], table => (none, table)
  | s :: rest, table =>
    if g.isNonterminal s then
      match followAt g p s rest table with
      | .error f => (some f, table)
      | .ok table => followAlong g p rest table
    else followAlong g p rest table

def followRound (g : Grammar S) :
    List (Production S) → Registry S (List S) → Option Fault × Registry S (List S)
  | [], table => (none, table)
  | p :: ps, table =>
    match followAlong g p p.symbols table with
    | (some f, table) => (some f, table)
    | (none, table) => followRound g ps table

def followBlank (g : Grammar S) : Registry S (List S) :=
  ⟨g.nonterminals.keys.map (·, [])⟩

def followStart (g : Grammar S) (start : S) : Registry S (List S) :=
  g.followBlank.insert start [endMark]

/-- The symbols that can follow each nonterminal, the end following the given symbol or, by default,
the name of the first production. -/
def computeFollow (g : Grammar S) (start : Option S) : Except Fault Unit × Grammar S :=
  if !g.follow.isEmpty then (.ok (), g)
  else
    match (if g.first.isEmpty then g.computeFirst else (.ok (), g)) with
    | (.error f, g) => (.error f, g)
    | (.ok (), g) =>
      match start.orElse fun _ => g.productions.head?.map Production.name with
      | none => (.error .listRange, { g with follow := g.followBlank })
      | some start =>
        let table := followStart g start
        match followRound g g.productions table with
        | (some f, table) => (.error f, { g with follow := table })
        | (none, table) =>
          let round := fun t => (followRound g g.productions t).2
          (.ok (), { g with follow := saturate round g.roundLimit table })

end LispKit.Grammar
