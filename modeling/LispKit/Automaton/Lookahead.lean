import LispKit.Automaton.Collection
import LispKit.Automaton.Digraph
import LispKit.Grammar.Useful

/-! Lookaheads: for every complete item of a state the symbols before which its production may be reduced.

They are computed along the steps of the automaton over nonterminals: which symbols can be read right
after such a step, then which of these sets include one another, and last which complete items look
back to which steps. -/

namespace LispKit.Lookahead

variable {S : Type} [DecidableEq S] [Vocabulary S]

open Vocabulary

abbrev Transition (S : Type) := Nat × S

def transitions (g : Grammar S) (c : Collection S) : List (Transition S) :=
  distinct (c.states.zipIdx.flatMap fun (st, i) =>
    ((st.items.filterMap Item.next?).filter g.isNonterminal).map (i, ·))

def target (c : Collection S) (t : Transition S) : Nat :=
  (c.goto? t.1 t.2).getD 0

def aheadOf (c : Collection S) (t : Transition S) : List S :=
  (c.itemsOf (target c t)).filterMap Item.next?

def directReads (g : Grammar S) (c : Collection S) (start : S) (t : Transition S) : List S :=
  let terms := distinct ((aheadOf c t).filter g.isTerminal)
  if t.1 = 0 && t.2 = start then terms ++ [endMark] else terms

def reads (c : Collection S) (nullable : List S) (t : Transition S) : List (Transition S) :=
  ((aheadOf c t).filter nullable.contains).map (target c t, ·)

/-- A walk from an item's dot to the end of its production: where it ends, and the nonterminal steps on
it after which the production's rest can vanish. -/
def walk (g : Grammar S) (c : Collection S) (nullable : List S) (known : Transition S → Bool) :
    Nat → List S → Nat × List (Transition S)
  | state, [] => (state, [])
  | state, s :: rest =>
    let vanishes := rest.all fun r => !g.isTerminal r && nullable.contains r
    let here := if known (state, s) && vanishes then [(state, s)] else []
    let (final, more) := walk g c nullable known (target c (state, s)) rest
    (final, here ++ more)

def repeats (r p : Item S) : Bool :=
  r.name = p.name && r.symbols.length = p.symbols.length &&
    r.marked.take r.dot = (p.marked.drop 1).take r.dot

def lookbackOf (c : Collection S) (final : Nat) (p : Item S) : List (Nat × Item S) :=
  ((c.itemsOf final).filter (repeats · p)).map (final, ·)

structure Relations (S : Type) where
  lookback : List (Transition S × List (Nat × Item S))
  includes : Registry (Transition S) (List (Transition S))

def relate (g : Grammar S) (c : Collection S) (nullable : List S) (known : Transition S → Bool)
    (r : Relations S) (t : Transition S) : Relations S :=
  let walks := ((c.itemsOf t.1).filter fun p => p.name = t.2).map fun p =>
    (p, walk g c nullable known t.1 (p.symbols.drop p.dot))
  let lookback := walks.flatMap fun (p, final, _) => lookbackOf c final p
  let included := walks.flatMap fun (_, _, steps) => steps
  { lookback := r.lookback ++ [(t, lookback)]
    includes := included.foldl (fun r i => r.update i [] (· ++ [t])) r.includes }

def relations (g : Grammar S) (c : Collection S) (nullable : List S) (ts : List (Transition S)) :
    Relations S :=
  ts.foldl (relate g c nullable ts.contains) ⟨[], {}⟩

def followSets (g : Grammar S) (c : Collection S) (start : S) (nullable : List S)
    (ts : List (Transition S)) (r : Relations S) : Slots (Transition S) S :=
  let readSets := Digraph.solve ts (reads c nullable) (Slots.ofLists ts (directReads g c start))
  Digraph.solve ts (fun t => r.includes.getD t []) readSets

structure Entry (S : Type) where
  state : Nat
  item : Item S
  symbols : List S

def addEntry (entries : List (Entry S)) (state : Nat) (item : Item S) (symbols : List S) :
    List (Entry S) :=
  if entries.any fun e => e.state == state && e.item.same item then
    entries.map fun e =>
      if e.state == state && e.item.same item then
        { e with
          symbols := symbols.foldl (fun seen a => if seen.contains a then seen else seen ++ [a]) e.symbols }
      else e
  else entries ++ [⟨state, item, distinct symbols⟩]

def compute (g : Grammar S) (c : Collection S) (start : S) : List (Entry S) :=
  let nullable := g.nullable
  let ts := transitions g c
  let r := relations g c nullable ts
  let follow := followSets g c start nullable ts r
  r.lookback.foldl (fun entries (t, items) =>
    items.foldl (fun entries (state, item) => addEntry entries state item (follow.get t)) entries) []

def find? (entries : List (Entry S)) (state : Nat) (item : Item S) : Option (List S) :=
  (entries.find? fun e => e.state == state && e.item.same item).map Entry.symbols

end LispKit.Lookahead
