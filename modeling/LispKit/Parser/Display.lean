import LispKit.Datum

/-! How values are shown in a parser's trace. -/

namespace LispKit.Display

def onOneLine (written : String) : String :=
  if written.contains '\n' then Text.quoted written else written

def resultLimit : Nat := 40

def result (type written : String) : String :=
  let line := onOneLine written
  let cut :=
    if resultLimit < line.length then String.ofList (line.toList.take resultLimit) ++ " ..." else line
  "<" ++ type ++ " @ 0x> (" ++ cut ++ ")"

def entry (type written : String) : String :=
  let line := onOneLine written
  if line.length < 16 then line else "<" ++ type ++ " @ 0x>"

end LispKit.Display
