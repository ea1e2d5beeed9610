import LispKit.Text.Blank

/-! Quoted text: a text between quotes, with what cannot stand there escaped. -/

namespace LispKit.Text

def unprintableRanges : List (Nat × Nat) :=
  [(0, 31), (127, 160), (173, 173), (1536, 1541), (1564, 1564), (1757, 1757), (1807, 1807),
    (2192, 2193), (2274, 2274), (5760, 5760), (6158, 6158), (8192, 8207), (8232, 8239),
    (8287, 8292), (8294, 8303), (12288, 12288), (57344, 63743), (65279, 65279), (65529, 65531),
    (69821, 69821), (69837, 69837), (78896, 78904), (113824, 113827), (119155, 119162),
    (917505, 917505), (917536, 917631), (983040, 1048573), (1048576, 1114109)]

def hexPadded (width n : Nat) : List Char :=
  let digits := Nat.toDigits 16 n
  List.replicate (width - digits.length) '0' ++ digits

def escapeCode (n : Nat) : List Char :=
  if n < 256 then '\\' :: 'x' :: hexPadded 2 n
  else if n < 65536 then '\\' :: 'u' :: hexPadded 4 n
  else '\\' :: 'U' :: hexPadded 8 n

def escapeChar (quote c : Char) : List Char :=
  if c = quote || c = '\\' then ['\\', c]
  else if c = '\n' then ['\\', 'n']
  else if c = '\r' then ['\\', 'r']
  else if c = '\t' then ['\\', 't']
  else if inRanges unprintableRanges c then escapeCode c.toNat
  else [c]

def quoteFor (s : List Char) : Char :=
  if s.contains '\'' && !s.contains '"' then '"' else '\''

def quoteChars (s : List Char) : List Char :=
  let quote := quoteFor s
  quote :: s.flatMap (escapeChar quote) ++ [quote]

def quoted (s : String) : String :=
  String.ofList (quoteChars s.toList)

end LispKit.Text
