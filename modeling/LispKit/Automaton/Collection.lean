import LispKit.Automaton.Item

/-! The collection of item sets: the states of the automaton that follows productions. -/

namespace LispKit

/-- A state: the items that it was reached by, and those with everything that can begin after a dot. -/
structure ItemSet (S : Type) where
  kernel : List (Item S)
  items : List (Item S)

/-- The states, and for every state its steps: over which symbol to which state. -/
structure Collection (S : Type) where
  states : List (ItemSet S)
  steps : List (List (S × Nat))

namespace Collection

variable {S : Type} [DecidableEq S] [Vocabulary S]

def closureFrom (g : Grammar S) : Nat → List Nat → List (Item S) → List (Item S)
  | 0, _, queue => queue
  | _ + 1, _, [] => []
  | n + 1, listed, item :: queue =>
    let begun : List (Production S) := match item.next? with
      | none => []
      | some s => (g.productionsOf s).filter fun p => !listed.contains p.number
    item :: closureFrom g n (listed ++ begun.map Production.number) (queue ++ begun.map Item.start)

def closure (g : Grammar S) (kernel : List (Item S)) : List (Item S) :=
  closureFrom g (kernel.length + g.size) [] kernel

def moved (items : List (Item S)) (s : S) : List (Item S) :=
  (items.filter fun i => i.next? = some s).map Item.advance

def symbolsOf (items : List (Item S)) : List S :=
  distinct (items.flatMap fun i => distinct i.symbols)

def sameKernel : List (Item S) → List (Item S) → Bool
  | [], [] => true
  | i :: is, j :: js => i.same j && sameKernel is js
  | _, _ => false

def addStep (g : Grammar S) (items : List (Item S)) (found : List (ItemSet S) × List (S × Nat)) (s : S) :
    List (ItemSet S) × List (S × Nat) :=
  match moved items s with
  | [] => found
  | kernel =>
    match found.1.findIdx? fun st => sameKernel st.kernel kernel with
    | some target => (found.1, found.2 ++ [(s, target)])
    | none => (found.1 ++ [⟨kernel, closure g kernel⟩], found.2 ++ [(s, found.1.length)])

def exploreFrom (g : Grammar S) : Nat → Collection S → Collection S
  | 0, c => c
  | n + 1, c =>
    match c.states[c.steps.length]? with
    | none => c
    | some st =>
      let (states, steps) := (symbolsOf st.items).foldl (addStep g st.items) (c.states, [])
      exploreFrom g n ⟨states, c.steps ++ [steps]⟩

def initial (g : Grammar S) (p : Production S) : Collection S :=
  let kernel := [Item.start p]
  ⟨[⟨kernel, closure g kernel⟩], []⟩

def itemCount (g : Grammar S) : Nat :=
  g.all.foldr (fun p n => p.symbols.length + 1 + n) 0

def stateLimit (g : Grammar S) : Nat :=
  Nat.pow (itemCount g + 1) (itemCount g + 1)

def build (g : Grammar S) (p : Production S) : Collection S :=
  exploreFrom g (stateLimit g) (initial g p)

def itemsOf (c : Collection S) (state : Nat) : List (Item S) :=
  match c.states[state]? with
  | none => []
  | some st => st.items

def stepsOf (c : Collection S) (state : Nat) : List (S × Nat) :=
  c.steps[state]?.getD []

def goto? (c : Collection S) (state : Nat) (s : S) : Option Nat :=
  (c.stepsOf state).lookup s

end Collection

end LispKit
