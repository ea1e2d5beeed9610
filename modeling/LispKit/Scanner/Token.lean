import LispKit.Fault
import LispKit.Text.Decimal

/-! Tokens, and what handlers do with them. -/

namespace LispKit.Scanner

structure Token (V : Type) where
  type : String
  value : V
  line : Int
  position : Int

def Token.shown {V : Type} (t : Token V) (written : String) : String :=
  "LexToken(" ++ t.type ++ "," ++ written ++ "," ++ Text.decimal t.line ++ "," ++
    Text.decimal t.position ++ ")"

/-- What a handler does before it ends: changes the token or its own surroundings, counts lines, moves
between states, or skips text. -/
inductive Effect (V σ : Type) where
  | edit (f : Token V → σ → Except Fault (Token V) × σ)
  | countLines (f : Token V → Except Fault Int)
  | begin (state : String)
  | push (state : String)
  | pop
  | skip (n : Int)

/-- How a handler ends: with its token, with none, or with the first token of a text that becomes the
new input, unless it is the input already. -/
inductive Ending where
  | keep
  | drop
  | feed (text : String)
  deriving DecidableEq

/-- What a handler does when it is called. -/
structure Script (V σ : Type) where
  effects : List (Effect V σ)
  ending : Ending

/-- What a handler sees of the scanner that calls it. -/
structure Situation where
  state : String
  stack : List String
  text : Option (List Char)
  position : Int
  line : Int

/-- A handler of matches, of illegal characters or of the end of the input. What it does depends on the token, on the
scanner, and on the surroundings. -/
structure Handler (V σ : Type) where
  call : Token V → Situation → σ → Script V σ

def Handler.always {V σ : Type} (s : Script V σ) : Handler V σ :=
  ⟨fun _ _ _ => s⟩

end LispKit.Scanner
