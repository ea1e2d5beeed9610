import LispKit.Text.Word

/-! Decimal numerals, with the limit on how long a numeral may be. -/

namespace LispKit.Text

def digitLimit : Nat := 4300

@[irreducible] def exceedsDigitLimit (n : Int) : Bool :=
  Nat.pow 10 digitLimit ≤ n.natAbs

def decimal (n : Int) : String :=
  if n < 0 then "-" ++ Nat.repr n.natAbs else Nat.repr n.natAbs

def digitValue (c : Char) : Nat :=
  match digitRanges.find? fun r => r.1 ≤ c.toNat && c.toNat ≤ r.2 with
  | some r => (c.toNat - r.1) % 10
  | none => c.toNat - '0'.toNat

def digitsValue (digits : List Char) : Nat :=
  digits.foldl (fun n c => 10 * n + digitValue c) 0

inductive NumeralError where
  | malformed (text : String)
  | tooLong (digits : Nat)
  deriving DecidableEq

def digitGroups : List Char → Option (List Char)
  | [] => none
  | [c] => if isDecimalDigit c then some [c] else none
  | c :: '_' :: rest => if isDecimalDigit c then (digitGroups rest).map (c :: ·) else none
  | c :: rest => if isDecimalDigit c then (digitGroups rest).map (c :: ·) else none

def unsigned : List Char → Bool × List Char
  | '-' :: rest => (true, rest)
  | '+' :: rest => (false, rest)
  | rest => (false, rest)

def readInteger (s : String) : Except NumeralError Int :=
  let (negative, rest) := unsigned (trim s.toList)
  match digitGroups rest with
  | none => .error (.malformed s)
  | some digits =>
    if digitLimit < digits.length then .error (.tooLong digits.length)
    else .ok (if negative then -(digitsValue digits : Int) else digitsValue digits)

end LispKit.Text
