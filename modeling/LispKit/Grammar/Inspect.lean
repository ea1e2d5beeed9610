import LispKit.Automaton.Item
import LispKit.Fault
import LispKit.Grammar.Useful

/-! Looking into a grammar by number, where negative numbers count from the end. -/

namespace LispKit

def place? {α : Type} (xs : List α) (i : Int) : Option α :=
  if 0 ≤ i then xs[i.toNat]?
  else if -(xs.length : Int) ≤ i then xs[(i + xs.length).toNat]? else none

def insertAt {α : Type} (xs : List α) (i : Int) (x : α) : List α :=
  let n := if i < 0 then (i + xs.length).toNat else i.toNat
  xs.take n ++ x :: xs.drop n

namespace Grammar

variable {S : Type} [DecidableEq S] [Vocabulary S]

open Vocabulary

def productionAt (g : Grammar S) (empty : Fault) (i : Int) : Except Fault (Production S) :=
  match place? (g.augmented :: g.productions.map some) i with
  | none => .error .listRange
  | some none => .error empty
  | some (some p) => .ok p

def symbolAt (g : Grammar S) (i k : Int) : Except Fault S := do
  let p ← g.productionAt (.unindexed "NoneType") i
  match place? p.symbols k with
  | none => .error .tupleRange
  | some s => .ok s

/-- An item as it is shown: its text, the dot's place, the symbol before it and the productions that can
begin after it. At the front, the symbol before the dot is the last one. -/
structure ItemView (S : Type) where
  text : String
  place : Int
  before : Option S
  after : List (Production S)

def itemView (g : Grammar S) (p : Production S) (n : Int) : ItemView S :=
  let marked := insertAt p.symbols n dotMark
  { text := label p.name ++ " -> " ++ spelled marked
    place := n
    before := place? marked (n - 1)
    after := match place? marked (n + 1) with
      | some s => g.productionsOf s
      | none => [] }

def itemAt (g : Grammar S) (i n : Int) : Except Fault (Option (ItemView S)) := do
  let p ← g.productionAt (.missingAttribute "NoneType" "lr_item") i
  .ok (if p.symbols.length < n then none else some (g.itemView p n))

def itemViews (g : Grammar S) : Except Fault (List (List (ItemView S))) :=
  match g.augmented with
  | none => .error (.unsized "NoneType")
  | some _ => .ok (g.all.map fun p => (List.range (p.symbols.length + 1)).map fun (n : Nat) => g.itemView p n)

def unreachableSymbols (g : Grammar S) : Except Fault (List S) :=
  match g.augmented with
  | none => .error (.missingAttribute "NoneType" "prod")
  | some p => .ok (p.symbols.head?.elim [] g.unreachable)

end Grammar

end LispKit
