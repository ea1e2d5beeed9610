/-! Blank characters, and the words and lines of a text. -/

namespace LispKit.Text

def inRanges (ranges : List (Nat × Nat)) (c : Char) : Bool :=
  ranges.any fun r => r.1 ≤ c.toNat && c.toNat ≤ r.2

def blankRanges : List (Nat × Nat) :=
  [(9, 13), (28, 32), (133, 133), (160, 160), (5760, 5760), (8192, 8202), (8232, 8233),
    (8239, 8239), (8287, 8287), (12288, 12288)]

def isBlank (c : Char) : Bool :=
  inRanges blankRanges c

def isLineBreak (c : Char) : Bool :=
  inRanges [(10, 13), (28, 30), (133, 133), (8232, 8233)] c

def trimLeft (s : List Char) : List Char :=
  s.dropWhile isBlank

def trim (s : List Char) : List Char :=
  (trimLeft (trimLeft s).reverse).reverse

def wordsFrom (current : List Char) : List Char → List (List Char)
  | [] => if current.isEmpty then [] else [current.reverse]
  | c :: rest =>
    if isBlank c then
      if current.isEmpty then wordsFrom [] rest else current.reverse :: wordsFrom [] rest
    else wordsFrom (c :: current) rest

def words (s : List Char) : List (List Char) :=
  wordsFrom [] s

def linesFrom (current : List Char) : List Char → List (List Char)
  | [] => if current.isEmpty then [] else [current.reverse]
  | '\r' :: '\n' :: rest => current.reverse :: linesFrom [] rest
  | c :: rest =>
    if isLineBreak c then current.reverse :: linesFrom [] rest else linesFrom (c :: current) rest

def lines (s : List Char) : List (List Char) :=
  linesFrom [] s

def divide (mark : Char) : List Char → List (List Char)
  | [] => [[]]
  | c :: rest =>
    if c = mark then [] :: divide mark rest
    else
      match divide mark rest with
      | [] => [[c]]
      | piece :: more => (c :: piece) :: more

def placeOf? (word : List Char) : List Char → Option Nat
  | [] => if word.isEmpty then some 0 else none
  | c :: rest => if word.isPrefixOf (c :: rest) then some 0 else (placeOf? word rest).map (· + 1)

def padRight (width : Nat) (s : String) : String :=
  s ++ String.ofList (List.replicate (width - s.length) ' ')

end LispKit.Text
