import LispKit.Text.Blank

/-! Text literals: the text that a quoted literal with escapes denotes. -/

namespace LispKit.Text.Literal

def hexValue? (digits : List Char) : Option Nat :=
  digits.foldl (fun acc c => do
    let n ← acc
    if c.isDigit then some (16 * n + (c.toNat - 48))
    else if 'a' ≤ c && c ≤ 'f' then some (16 * n + (c.toNat - 87))
    else if 'A' ≤ c && c ≤ 'F' then some (16 * n + (c.toNat - 55))
    else none) (some 0)

def isOctal (c : Char) : Bool :=
  '0' ≤ c && c ≤ '7'

def octalValue (digits : List Char) : Nat :=
  digits.foldl (fun n c => 8 * n + (c.toNat - 48)) 0

def coded (width : Nat) (rest : List Char) : Option (List Char × List Char) := do
  let digits := rest.take width
  guard (digits.length = width)
  let n ← hexValue? digits
  guard (n < 0x110000)
  some ([Char.ofNat n], rest.drop width)

def escape : List Char → Option (List Char × List Char)
  | [] => none
  | '\n' :: rest => some ([], rest)
  | '\\' :: rest => some (['\\'], rest)
  | '\'' :: rest => some (['\''], rest)
  | '"' :: rest => some (['"'], rest)
  | 'a' :: rest => some (['\x07'], rest)
  | 'b' :: rest => some (['\x08'], rest)
  | 'f' :: rest => some (['\x0c'], rest)
  | 'n' :: rest => some (['\n'], rest)
  | 'r' :: rest => some (['\r'], rest)
  | 't' :: rest => some (['\t'], rest)
  | 'v' :: rest => some (['\x0b'], rest)
  | 'x' :: rest => coded 2 rest
  | 'u' :: rest => coded 4 rest
  | 'U' :: rest => coded 8 rest
  | 'N' :: _ => none
  | c :: rest =>
    if isOctal c then
      let digits := ((c :: rest).take 3).takeWhile isOctal
      some ([Char.ofNat (octalValue digits)], (c :: rest).drop digits.length)
    else some (['\\', c], rest)

def inside (quote : Char) (triple : Bool) : Nat → List Char → Option (List Char × List Char)
  | 0, _ => none
  | _ + 1, [] => none
  | n + 1, '\\' :: rest => do
    let (text, rest) ← escape rest
    let (more, rest) ← inside quote triple n rest
    some (text ++ more, rest)
  | n + 1, c :: rest =>
    if triple && c = quote && rest.take 2 = [quote, quote] then some ([], rest.drop 2)
    else if !triple && c = quote then some ([], rest)
    else if !triple && c = '\n' then none
    else do
      let (more, rest) ← inside quote triple n rest
      some (c :: more, rest)

def isGap (c : Char) : Bool :=
  c = ' ' || c = '\t' || c = '\x0c'

def sequence : Nat → List Char → Option (List Char)
  | 0, _ => none
  | n + 1, s =>
    match s with
    | [] => none
    | quote :: rest => do
      guard (quote = '\'' || quote = '"')
      let triple := rest.take 2 = [quote, quote]
      let (text, rest) ← inside quote triple (s.length + 1) (if triple then rest.drop 2 else rest)
      let rest := rest.dropWhile isGap
      match rest with
      | [] => some text
      | '#' :: _ => some text
      | _ => (sequence n rest).map (text ++ ·)

def value? (s : String) : Option String :=
  (sequence (s.length + 1) s.toList).map String.ofList

end LispKit.Text.Literal
