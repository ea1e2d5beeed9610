import LispKit.Text.Word

/-! Patterns: what a piece of text may look like, alternatives in order of preference. -/

namespace LispKit

inductive ClassMember where
  | range (first last : Char)
  | digit (negated : Bool)
  | blank (negated : Bool)
  | word (negated : Bool)
  deriving DecidableEq

inductive Greed where
  | most
  | least
  | possessive
  deriving DecidableEq

inductive Pattern where
  | empty
  | char (c : Char)
  | any
  | oneOf (negated : Bool) (members : List ClassMember)
  | atStart
  | atEnd
  | seq (p q : Pattern)
  | alt (p q : Pattern)
  | group (number : Nat) (p : Pattern)
  | times (least : Nat) (most : Option Nat) (greed : Greed) (p : Pattern)
  deriving DecidableEq

namespace ClassMember

def single (c : Char) : ClassMember :=
  range c c

/-- The characters a character stands for. Where case is ignored, only ASCII letters have two forms. -/
def forms (ignoreCase : Bool) (c : Char) : List Char :=
  if ignoreCase then [c, c.toLower, c.toUpper] else [c]

def holds (ignoreCase : Bool) (c : Char) : ClassMember → Bool
  | range first last => (forms ignoreCase c).any fun d => first ≤ d && d ≤ last
  | digit negated => Text.isDecimalDigit c != negated
  | blank negated => Text.isBlank c != negated
  | word negated => Text.isWordCharacter c != negated

end ClassMember

end LispKit
