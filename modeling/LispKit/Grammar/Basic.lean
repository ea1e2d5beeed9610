import LispKit.Registry
import LispKit.Grammar.Vocabulary

/-! Grammars: numbered productions, and for every symbol the productions that use it. -/

namespace LispKit

inductive Associativity where
  | left
  | right
  | nonassoc
  deriving DecidableEq, Repr

namespace Associativity

def name : Associativity → String
  | left => "left"
  | right => "right"
  | nonassoc => "nonassoc"

def ofName? : String → Option Associativity
  | "left" => some left
  | "right" => some right
  | "nonassoc" => some nonassoc
  | _ => none

end Associativity

structure Precedence where
  associativity : Associativity
  level : Int
  deriving DecidableEq

def Precedence.default : Precedence := ⟨.right, 0⟩

structure Production (S : Type) where
  number : Nat
  name : S
  symbols : List S
  precedence : Precedence := .default
  file : String := ""
  line : Int := 0
  rule : String := ""

def spelled {S : Type} [Vocabulary S] (symbols : List S) : String :=
  " ".intercalate (symbols.map Vocabulary.label)

def Production.text {S : Type} [Vocabulary S] (p : Production S) : String :=
  if p.symbols.isEmpty then Vocabulary.label p.name ++ " -> <empty>"
  else Vocabulary.label p.name ++ " -> " ++ spelled p.symbols

def distinct {α : Type} [BEq α] (xs : List α) : List α :=
  xs.foldl (fun seen x => if seen.contains x then seen else seen ++ [x]) []

structure Grammar (S : Type) where
  augmented : Option (Production S) := none
  productions : List (Production S) := []
  rules : Registry S (List Nat) := {}
  terminals : Registry S (List Nat) := {}
  nonterminals : Registry S (List Nat) := {}
  precedence : Registry S Precedence := {}
  usedPrecedence : List S := []
  start : Option S := none
  first : Registry S (List S) := {}
  follow : Registry S (List S) := {}
  reductions : Registry Nat Int := {}

namespace Grammar

variable {S : Type} [DecidableEq S] [Vocabulary S]

open Vocabulary

/-- A grammar with terminals and no productions; the error symbol is always a terminal. -/
def ofTerminals (terminals : List S) : Grammar S :=
  { terminals := (terminals ++ [errorMark]).foldl (fun r t => r.insertIfNew t []) {} }

def size (g : Grammar S) : Nat :=
  g.productions.length + 1

def production? (g : Grammar S) (number : Nat) : Option (Production S) :=
  match number with
  | 0 => g.augmented
  | n + 1 => g.productions[n]?

def all (g : Grammar S) : List (Production S) :=
  g.augmented.toList ++ g.productions

def isTerminal (g : Grammar S) (s : S) : Bool :=
  g.terminals.contains s

def isNonterminal (g : Grammar S) (s : S) : Bool :=
  g.nonterminals.contains s

def isDefined (g : Grammar S) (s : S) : Bool :=
  g.rules.contains s

def productionsOf (g : Grammar S) (name : S) : List (Production S) :=
  (g.rules.getD name []).filterMap g.production?

def precedenceOf (g : Grammar S) (s : S) : Precedence :=
  g.precedence.getD s .default

def rightmostTerminal (isTerminal : S → Bool) (symbols : List S) : Option S :=
  symbols.reverse.find? isTerminal

def use (number : Nat) (g : Grammar S) (s : S) : Grammar S :=
  if g.isTerminal s then { g with terminals := g.terminals.update s [] (· ++ [number]) }
  else { g with nonterminals := g.nonterminals.update s [] (· ++ [number]) }

def insert (g : Grammar S) (name : S) (symbols : List S) (precedence : Precedence)
    (file : String) (line : Int) (rule : String) : Grammar S :=
  let number := g.size
  let g := { g with nonterminals := g.nonterminals.insertIfNew name [] }
  let g := symbols.foldl (use number) g
  { g with
    productions := g.productions ++ [⟨number, name, symbols, precedence, file, line, rule⟩]
    rules := g.rules.update name [] (· ++ [number]) }

def setStart (g : Grammar S) (s : S) : Grammar S :=
  { g with
    augmented := some ⟨0, startMark, [s], .default, "", 0, ""⟩
    nonterminals := g.nonterminals.update s [] (· ++ [0])
    start := some s }

def undefinedSymbols (g : Grammar S) : List (S × Production S) :=
  g.all.flatMap fun p =>
    (p.symbols.filter fun s => !g.isDefined s && !g.isTerminal s && s != errorMark).map (·, p)

def unusedTerminals (g : Grammar S) : List S :=
  (g.terminals.entries.filter fun e => e.1 != errorMark && e.2.isEmpty).map Prod.fst

def unusedRules (g : Grammar S) : List (Production S) :=
  (g.nonterminals.entries.filter fun e => e.2.isEmpty).filterMap fun e => (g.productionsOf e.1).head?

def unusedPrecedence (g : Grammar S) : List (S × Associativity) :=
  (g.precedence.entries.filter fun e => !g.isTerminal e.1 && !g.usedPrecedence.contains e.1).map
    fun e => (e.1, e.2.associativity)

end Grammar

end LispKit
