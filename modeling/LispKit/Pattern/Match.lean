import LispKit.Pattern.Basic

/-! Matching a pattern at the front of a text: the first way that succeeds is taken. -/

namespace LispKit.Pattern

structure Cursor where
  rest : List Char
  position : Nat
  lastGroup : Option Nat

namespace Cursor

def take (test : Char → Bool) (next : Cursor → Option Cursor) (s : Cursor) : Option Cursor :=
  match s.rest with
  | [] => none
  | c :: rest => if test c then next { s with rest := rest, position := s.position + 1 } else none

end Cursor

def mayRepeat (most : Option Nat) (n : Nat) : Bool :=
  match most with
  | none => true
  | some m => n < m

/-- Repeats a body, as often as possible first. After the least number, a repetition that has taken
nothing is the last one. The first argument bounds the repetitions. -/
def repeatMost (body : (Cursor → Option Cursor) → Cursor → Option Cursor) (least : Nat)
    (most : Option Nat) (next : Cursor → Option Cursor) :
    Nat → Nat → Option Nat → Cursor → Option Cursor
  | 0, _, _, s => next s
  | fuel + 1, n, last, s =>
    let again (_ : Unit) := body (repeatMost body least most next fuel (n + 1) (some s.position)) s
    if n < least then again ()
    else if mayRepeat most n && last != some s.position then
      match again () with
      | some r => some r
      | none => next s
    else next s

def repeatLeast (body : (Cursor → Option Cursor) → Cursor → Option Cursor) (least : Nat)
    (most : Option Nat) (next : Cursor → Option Cursor) :
    Nat → Nat → Option Nat → Cursor → Option Cursor
  | 0, _, _, s => next s
  | fuel + 1, n, last, s =>
    let again (_ : Unit) := body (repeatLeast body least most next fuel (n + 1) (some s.position)) s
    if n < least then again ()
    else
      match next s with
      | some r => some r
      | none => if mayRepeat most n && last != some s.position then again () else none

/-- Runs a pattern from a cursor and then the continuation, going back over the alternatives of the
pattern as long as the continuation fails. -/
def run (ignoreCase : Bool) : Pattern → (Cursor → Option Cursor) → Cursor → Option Cursor
  | empty, next, s => next s
  | char c, next, s => s.take (fun d => (ClassMember.forms ignoreCase d).contains c) next
  | any, next, s => s.take (· != '\n') next
  | oneOf negated members, next, s =>
    s.take (fun d => members.any (·.holds ignoreCase d) != negated) next
  | atStart, next, s => if s.position = 0 then next s else none
  | atEnd, next, s =>
    match s.rest with
    | [] | ['\n'] => next s
    | _ => none
  | seq p q, next, s => run ignoreCase p (run ignoreCase q next) s
  | alt p q, next, s =>
    match run ignoreCase p next s with
    | some r => some r
    | none => run ignoreCase q next s
  | group number p, next, s =>
    run ignoreCase p (fun s => next { s with lastGroup := some number }) s
  | times least most greed p, next, s =>
    let fuel := s.rest.length + least + 2
    match greed with
    | .most => repeatMost (run ignoreCase p) least most next fuel 0 none s
    | .least => repeatLeast (run ignoreCase p) least most next fuel 0 none s
    | .possessive =>
      match repeatMost (run ignoreCase p) least most some fuel 0 none s with
      | some r => next r
      | none => none

/-- How many characters a match takes, and the group that was closed last. -/
structure Match where
  length : Nat
  lastGroup : Option Nat
  deriving DecidableEq

def match? (p : Pattern) (ignoreCase : Bool) (position : Nat) (rest : List Char) : Option Match :=
  (run ignoreCase p some ⟨rest, position, none⟩).map fun s => ⟨s.position - position, s.lastGroup⟩

end LispKit.Pattern
