import LispKit.Fault
import LispKit.Grammar.Vocabulary

/-! Stack symbols: what a parser has read or reduced, with values and places once they are known. -/

namespace LispKit.Parser

structure StackSymbol (S V : Type) where
  type : S
  value : Option V := none
  isToken : Bool := false
  line : Option Int := none
  position : Option Int := none
  endLine : Option Int := none
  endPosition : Option Int := none

namespace StackSymbol

variable {S V : Type} [Vocabulary S]

def atEnd : StackSymbol S V :=
  { type := Vocabulary.endMark }

def kindName (s : StackSymbol S V) : String :=
  if s.isToken then "LexToken" else "YaccSymbol"

def missing (s : StackSymbol S V) (name : String) : Fault :=
  .missingAttribute s.kindName name

def getValue (s : StackSymbol S V) : Except Fault V :=
  match s.value with
  | some v => .ok v
  | none => .error (s.missing "value")

def getLine (s : StackSymbol S V) : Except Fault Int :=
  match s.line with
  | some n => .ok n
  | none => .error (s.missing "lineno")

def getPosition (s : StackSymbol S V) : Except Fault Int :=
  match s.position with
  | some n => .ok n
  | none => .error (s.missing "lexpos")

def spanning (s first last : StackSymbol S V) : Except Fault (StackSymbol S V) := do
  let line ← first.getLine
  let position ← first.getPosition
  let lastLine ← last.getLine
  let lastPosition ← last.getPosition
  .ok { s with
    line := some line
    position := some position
    endLine := some (last.endLine.getD lastLine)
    endPosition := some (last.endPosition.getD lastPosition) }

def placedAt (s other : StackSymbol S V) : Except Fault (StackSymbol S V) := do
  let line ← other.getLine
  let position ← other.getPosition
  .ok { s with line := some line, position := some position }

def extendedTo (s token : StackSymbol S V) : Except Fault (StackSymbol S V) := do
  let line ← s.getLine
  let position ← s.getPosition
  .ok { s with
    endLine := some (token.line.getD line)
    endPosition := some (token.position.getD position) }

end StackSymbol

end LispKit.Parser
