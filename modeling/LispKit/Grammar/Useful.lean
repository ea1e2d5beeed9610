import LispKit.Grammar.Basic

/-! Useful symbols: which nonterminals the start symbol reaches, and which derive a string of terminals. -/

namespace LispKit.Grammar

variable {S : Type} [DecidableEq S] [Vocabulary S]

open Vocabulary

/-- Marks a symbol and, one after the other, all that its productions lead to, unless it is marked already. The number
bounds the depth. -/
def mark (g : Grammar S) : Nat → S → List S → List S
  | 0, _, seen => seen
  | n + 1, s, seen =>
    if seen.contains s then seen
    else ((g.productionsOf s).flatMap Production.symbols).foldl (fun seen r => mark g n r seen) (seen ++ [s])

def reachable (g : Grammar S) (s : S) : List S :=
  g.mark g.size s []

def unreachable (g : Grammar S) (start : S) : List S :=
  let seen := g.reachable start
  g.nonterminals.keys.filter fun s => !seen.contains s

/-- Settles a name if all symbols of one of its right sides are settled. -/
def settleRule (settled : List S) (rule : S × List (List S)) : List S :=
  if !settled.contains rule.1 && rule.2.any (·.all settled.contains) then settled ++ [rule.1] else settled

/-- Passes over the rules, in which every name counts as soon as it is settled, up to the first that settles none. The
number bounds the passes. -/
def settle (rules : List (S × List (List S))) : Nat → List S → List S
  | 0, settled => settled
  | n + 1, settled =>
    let more := rules.foldl settleRule settled
    if more.length = settled.length then more else settle rules n more

def settleAll (rules : List (S × List (List S))) (base : List S) : List S :=
  settle rules (rules.length + 1) base

def finishing (g : Grammar S) : List S :=
  settleAll (g.rules.keys.map fun s => (s, (g.productionsOf s).map Production.symbols))
    ((g.terminals.keys ++ [endMark]).filter fun s => !g.isNonterminal s)

def endless (g : Grammar S) : List S :=
  let done := g.finishing
  (distinct (g.terminals.keys ++ endMark :: g.nonterminals.keys)).filter fun s =>
    !done.contains s && (g.isDefined s || g.isTerminal s || s == errorMark)

def nullable (g : Grammar S) : List S :=
  settleAll (g.productions.map fun p => (p.name, [p.symbols])) []

end LispKit.Grammar
