import LispKit.Pattern.Match
import LispKit.Text.Decimal
import LispKit.Text.Literal
import LispKit.Text.Quoted

/-! Reading patterns from their written form. -/

namespace LispKit.Pattern

inductive Cause where
  | unterminatedGroup
  | unbalancedParenthesis
  | unterminatedClass
  | nothingToRepeat
  | multipleRepeat
  | badEscape (escape : String)
  | incompleteEscape (escape : String)
  | octalRange (escape : String)
  | groupReference (number : String)
  | escapeAtEnd
  | badRange (first last : String)
  | bounds
  | repeatedName (name : String) (number previous : Nat)
  | badName (name : String)
  | missingName
  | unterminatedName
  | unexpectedEnd
  | unknownExtension (text : String)
  deriving DecidableEq

def Cause.message : Cause → String
  | unterminatedGroup => "missing ), unterminated subpattern"
  | unbalancedParenthesis => "unbalanced parenthesis"
  | unterminatedClass => "unterminated character set"
  | nothingToRepeat => "nothing to repeat"
  | multipleRepeat => "multiple repeat"
  | badEscape escape => "bad escape " ++ escape
  | incompleteEscape escape => "incomplete escape " ++ escape
  | octalRange escape => "octal escape value " ++ escape ++ " outside of range 0-0o377"
  | groupReference number => "invalid group reference " ++ number
  | escapeAtEnd => "bad escape (end of pattern)"
  | badRange first last => "bad character range " ++ first ++ "-" ++ last
  | bounds => "min repeat greater than max repeat"
  | repeatedName name number previous =>
    "redefinition of group name " ++ Text.quoted name ++ " as group " ++ Nat.repr number ++
      "; was group " ++ Nat.repr previous
  | badName name => "bad character in group name " ++ Text.quoted name
  | missingName => "missing group name"
  | unterminatedName => "missing >, unterminated name"
  | unexpectedEnd => "unexpected end of pattern"
  | unknownExtension text => "unknown extension " ++ text

structure ReadError where
  cause : Cause
  position : Nat
  deriving DecidableEq

def ReadError.message (e : ReadError) (pattern : String) : String :=
  let before := pattern.toList.take e.position
  let line := before.count '\n' + 1
  let column := (before.reverse.takeWhile (· != '\n')).length + 1
  e.cause.message ++ " at position " ++ Nat.repr e.position ++
    if pattern.contains '\n' then
      " (line " ++ Nat.repr line ++ ", column " ++ Nat.repr column ++ ")"
    else ""

structure Flags where
  ignoreCase : Bool := false
  verbose : Bool := false
  deriving DecidableEq

structure Reader where
  rest : List Char
  total : Nat
  groups : Nat := 0
  names : List (String × Nat) := []

namespace Reader

def position (s : Reader) : Nat :=
  s.total - s.rest.length

def drop (s : Reader) (n : Nat) : Reader :=
  { s with rest := s.rest.drop n }

def fail {α : Type} (cause : Cause) (position : Nat) : Except ReadError α :=
  .error ⟨cause, position⟩

inductive Piece where
  | plain (p : Pattern)
  | anchor (p : Pattern)
  | repeated (p : Pattern)

def Piece.pattern : Piece → Pattern
  | plain p => p
  | anchor p => p
  | repeated p => p

def join (pieces : List Piece) : Pattern :=
  match pieces.reverse.map Piece.pattern with
  | [] => .empty
  | p :: ps => ps.foldl .seq p

def isVerboseBlank (c : Char) : Bool :=
  c = ' ' || c = '\t' || c = '\n' || c = '\r' || c = '\x0b' || c = '\x0c'

def isAsciiLetter (c : Char) : Bool :=
  c.isAlpha

def category? : Char → Option ClassMember
  | 'd' => some (.digit false)
  | 'D' => some (.digit true)
  | 's' => some (.blank false)
  | 'S' => some (.blank true)
  | 'w' => some (.word false)
  | 'W' => some (.word true)
  | _ => none

def control? : Char → Option Char
  | 'a' => some '\x07'
  | 'f' => some '\x0c'
  | 'n' => some '\n'
  | 'r' => some '\r'
  | 't' => some '\t'
  | 'v' => some '\x0b'
  | _ => none

def coded (letter : Char) (width : Nat) (s : Reader) : Except ReadError (Char × Reader) :=
  let digits := (s.rest.take width).takeWhile fun c => (Text.Literal.hexValue? [c]).isSome
  let text := "\\" ++ String.ofList (letter :: digits)
  match Text.Literal.hexValue? digits with
  | some n =>
    if digits.length = width && n < 0x110000 then .ok (Char.ofNat n, s.drop width)
    else fail (.incompleteEscape text) (s.position - 2)
  | none => fail (.incompleteEscape text) (s.position - 2)

/-- Reads a character after a backslash. References to groups are not read. -/
def escape (inClass : Bool) (s : Reader) : Except ReadError (ClassMember × Reader) :=
  match s.rest with
  | [] => fail .escapeAtEnd (s.total - 1)
  | c :: rest =>
    let after := { s with rest := rest }
    match category? c, control? c with
    | some m, _ => .ok (m, after)
    | none, some d => .ok (.single d, after)
    | none, none =>
      if c = 'x' then (coded 'x' 2 after).map fun (d, s) => (.single d, s)
      else if c = 'u' then (coded 'u' 4 after).map fun (d, s) => (.single d, s)
      else if c = 'U' then (coded 'U' 8 after).map fun (d, s) => (.single d, s)
      else if inClass && c = 'b' then .ok (.single '\x08', after)
      else
      let digits := (rest.take 2).takeWhile Text.Literal.isOctal
      let value := Text.Literal.octalValue (c :: digits)
      if c = '0' || Text.Literal.isOctal c && (inClass || digits.length = 2) then
        if value ≤ 0o377 then .ok (.single (Char.ofNat value), after.drop digits.length)
        else fail (.octalRange ("\\" ++ String.ofList (c :: digits))) (s.position - 1)
      else if c.isDigit then
        if inClass then fail (.badEscape ("\\" ++ String.singleton c)) (s.position - 1)
        else fail (.groupReference (String.ofList (c :: (rest.take 1).takeWhile Char.isDigit))) s.position
      else if isAsciiLetter c then fail (.badEscape ("\\" ++ String.singleton c)) (s.position - 1)
      else .ok (.single c, after)

def classItem (s : Reader) (start : Nat) : Except ReadError (ClassMember × String × Reader) :=
  match s.rest with
  | [] => fail .unterminatedClass start
  | '\\' :: rest => do
    let after : Reader := { s with rest := rest }
    let (m, t) ← escape true after
    .ok (m, String.ofList (s.rest.take 2), t)
  | c :: rest => .ok (.single c, String.singleton c, { s with rest := rest })

def singleChar? : ClassMember → Option Char
  | .range a b => if a = b then some a else none
  | _ => none

def classMembers (start : Nat) :
    Nat → List ClassMember → Reader → Except ReadError (List ClassMember × Reader)
  | 0, _, _ => fail .unterminatedClass start
  | fuel + 1, members, s =>
    match s.rest with
    | [] => fail .unterminatedClass start
    | c :: rest =>
      if c = ']' && !members.isEmpty then .ok (members, { s with rest := rest })
      else do
        let here := s.position
        let (first, firstText, s) ← classItem s start
        match s.rest with
        | ['-'] => fail .unterminatedClass start
        | '-' :: ']' :: after => .ok (members ++ [first, .single '-'], { s with rest := after })
        | '-' :: after =>
          let (last, lastText, s) ← classItem { s with rest := after } start
          let bad := fail (.badRange firstText lastText) here
          match singleChar? first, singleChar? last with
          | some a, some b =>
            if b < a then bad else classMembers start fuel (members ++ [.range a b]) s
          | _, _ => bad
        | _ => classMembers start fuel (members ++ [first]) s

def readClass (s : Reader) : Except ReadError (Pattern × Reader) :=
  let start := s.position - 1
  match s.rest with
  | '^' :: rest => do
    let (members, s) ← classMembers start (s.rest.length + 1) [] { s with rest := rest }
    .ok (.oneOf true members, s)
  | _ => do
    let (members, s) ← classMembers start (s.rest.length + 1) [] s
    .ok (.oneOf false members, s)

/-- The bounds of a counted repetition in braces, without the opening one; none if the brace is an
ordinary character. -/
def bounds? (s : Reader) : Option (Nat × Option Nat × Reader) :=
  match s.rest with
  | '\x7d' :: _ => none
  | _ =>
    let low := s.rest.takeWhile Char.isDigit
    let afterLow := s.rest.dropWhile Char.isDigit
    let least := if low.isEmpty then 0 else Text.digitsValue low
    match afterLow with
    | ',' :: rest =>
      let high := rest.takeWhile Char.isDigit
      match rest.dropWhile Char.isDigit with
      | '\x7d' :: rest =>
        some (least, if high.isEmpty then none else some (Text.digitsValue high), { s with rest := rest })
      | _ => none
    | '\x7d' :: rest => some (least, some least, { s with rest := rest })
    | _ => none

def greedOf (s : Reader) : Greed × Reader :=
  match s.rest with
  | '?' :: rest => (.least, { s with rest := rest })
  | '+' :: rest => (.possessive, { s with rest := rest })
  | _ => (.most, s)

def repeatLast (least : Nat) (most : Option Nat) (sign : Nat) (pieces : List Piece) (s : Reader) :
    Except ReadError (List Piece × Reader) :=
  match pieces with
  | [] | .anchor _ :: _ => fail .nothingToRepeat sign
  | .repeated _ :: _ => fail .multipleRepeat sign
  | .plain p :: before =>
    let (greed, s) := greedOf s
    .ok (.repeated (.times least most greed p) :: before, s)

def isName (name : String) : Bool :=
  match name.toList with
  | [] => false
  | c :: rest => Text.isWordCharacter c && !Text.isDecimalDigit c && rest.all Text.isWordCharacter

def groupName (s : Reader) : Except ReadError (String × Reader) :=
  let name := String.ofList (s.rest.takeWhile (· != '>'))
  match s.rest.dropWhile (· != '>') with
  | [] => if name.isEmpty then fail .missingName s.position else fail .unterminatedName s.position
  | _ :: after =>
    if name.isEmpty then fail .missingName s.position
    else if isName name then .ok (name, { s with rest := after })
    else fail (.badName name) s.position

def openGroup (name : Option String) (namePosition : Nat) (s : Reader) : Except ReadError (Nat × Reader) :=
  let number := s.groups + 1
  match name with
  | none => .ok (number, { s with groups := number })
  | some name =>
    match s.names.lookup name with
    | some previous => fail (.repeatedName name number previous) namePosition
    | none => .ok (number, { s with groups := number, names := s.names ++ [(name, number)] })

def groupHead (s : Reader) : Except ReadError (Option Nat × Reader) :=
  match s.rest with
  | '?' :: ':' :: rest => .ok (none, { s with rest := rest })
  | '?' :: 'P' :: '<' :: rest => do
    let inside : Reader := { s with rest := rest }
    let (name, s) ← groupName inside
    let (number, s) ← openGroup (some name) inside.position s
    .ok (some number, s)
  | ['?'] => fail .unexpectedEnd (s.position + 1)
  | ['?', 'P'] => fail .unexpectedEnd (s.position + 2)
  | '?' :: 'P' :: c :: _ => fail (.unknownExtension ("?P" ++ String.singleton c)) s.position
  | '?' :: c :: _ => fail (.unknownExtension ("?" ++ String.singleton c)) s.position
  | _ => do
    let (number, s) ← openGroup none 0 s
    .ok (some number, s)

/-- What follows a comment. A line feed after a backslash does not end it. -/
def afterComment? : List Char → Option (List Char)
  | [] => some []
  | ['\\'] => none
  | '\\' :: _ :: rest => afterComment? rest
  | c :: rest => if c = '\n' then some rest else afterComment? rest

def dropComment (s : Reader) : Except ReadError Reader :=
  match afterComment? s.rest with
  | some rest => .ok { s with rest := rest }
  | none => fail .escapeAtEnd (s.total - 1)

mutual

def alternatives (verbose : Bool) : Nat → Reader → Except ReadError (Pattern × Reader)
  | 0, s => .ok (.empty, s)
  | fuel + 1, s => do
    let (p, s) ← pieces verbose fuel [] s
    match s.rest with
    | '|' :: rest =>
      let (q, s) ← alternatives verbose fuel { s with rest := rest }
      .ok (.alt p q, s)
    | _ => .ok (p, s)

def pieces (verbose : Bool) : Nat → List Piece → Reader → Except ReadError (Pattern × Reader)
  | 0, found, s => .ok (join found, s)
  | fuel + 1, found, s =>
    match s.rest with
    | [] => .ok (join found, s)
    | c :: rest =>
      let here := s.position
      let after : Reader := { s with rest := rest }
      let add (p : Pattern) (s : Reader) := pieces verbose fuel (.plain p :: found) s
      if c = '|' || c = ')' then .ok (join found, s)
      else if verbose && isVerboseBlank c then pieces verbose fuel found after
      else if verbose && c = '#' then do
        let s ← dropComment after
        pieces verbose fuel found s
      else if c = '\\' then do
        let (m, s) ← escape false after
        match singleChar? m with
        | some d => add (.char d) s
        | none => add (.oneOf false [m]) s
      else if c = '[' then do
        let (p, s) ← readClass after
        add p s
      else if c = '*' then do
        let (found, s) ← repeatLast 0 none here found after
        pieces verbose fuel found s
      else if c = '+' then do
        let (found, s) ← repeatLast 1 none here found after
        pieces verbose fuel found s
      else if c = '?' then do
        let (found, s) ← repeatLast 0 (some 1) here found after
        pieces verbose fuel found s
      else if c = '\x7b' then
        match bounds? after with
        | none => add (.char c) after
        | some (least, most, s) =>
          if most.any (· < least) then fail .bounds (here + 1)
          else do
            let (found, s) ← repeatLast least most here found s
            pieces verbose fuel found s
      else if c = '.' then add .any after
      else if c = '^' then pieces verbose fuel (.anchor .atStart :: found) after
      else if c = '$' then pieces verbose fuel (.anchor .atEnd :: found) after
      else if c = '(' then do
        let (number, s) ← groupHead after
        let (p, s) ← alternatives verbose fuel s
        match s.rest with
        | ')' :: rest =>
          let p := match number with
            | some n => .group n p
            | none => p
          add p { s with rest := rest }
        | _ => fail .unterminatedGroup here
      else add (.char c) after

end

end Reader

/-- A pattern that was read: its named groups with their numbers. -/
structure Compiled where
  pattern : Pattern
  names : List (String × Nat)
  ignoreCase : Bool
  deriving DecidableEq

def compileChars (chars : List Char) (flags : Flags) : Except ReadError Compiled := do
  let start : Reader := { rest := chars, total := chars.length }
  let (p, s) ← Reader.alternatives flags.verbose (2 * chars.length + 2) start
  if s.rest.isEmpty then .ok ⟨p, s.names, flags.ignoreCase⟩
  else Reader.fail .unbalancedParenthesis s.position

def compile (text : String) (flags : Flags) : Except ReadError Compiled :=
  compileChars text.toList flags

def compile? (flags : Flags) (text : String) : Option Compiled :=
  (compile text flags).toOption

def Compiled.match? (c : Compiled) (position : Nat) (rest : List Char) : Option Match :=
  c.pattern.match? c.ignoreCase position rest

end LispKit.Pattern
