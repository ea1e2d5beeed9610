import LispKit.Grammar.Basic

/-! Items: productions with a dot that says how far they have been followed. -/

namespace LispKit

structure Item (S : Type) where
  number : Nat
  name : S
  symbols : List S
  dot : Nat
  deriving DecidableEq

namespace Item

variable {S : Type} [DecidableEq S] [Vocabulary S]

open Vocabulary

def start (p : Production S) : Item S :=
  ⟨p.number, p.name, p.symbols, 0⟩

def same (i j : Item S) : Bool :=
  i.number == j.number && i.dot == j.dot

def next? (i : Item S) : Option S :=
  i.symbols[i.dot]?

def isComplete (i : Item S) : Bool :=
  i.symbols.length ≤ i.dot

def advance (i : Item S) : Item S :=
  { i with dot := i.dot + 1 }

def marked (i : Item S) : List S :=
  i.symbols.take i.dot ++ dotMark :: i.symbols.drop i.dot

def text (i : Item S) : String :=
  label i.name ++ " -> " ++ spelled i.marked

omit [DecidableEq S] in
theorem length_marked (i : Item S) : i.marked.length = i.symbols.length + 1 := by
  simp only [marked, List.length_append, List.length_take, List.length_cons, List.length_drop]
  omega

end Item

end LispKit
