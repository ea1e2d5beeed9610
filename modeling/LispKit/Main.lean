import LispKit.Lisp.Program

/-! The command line: runs the program in the file `input.txt`. -/

open LispKit

def main : IO UInt32 := do
  let source ← IO.FS.readFile "input.txt"
  let outcome := Lisp.runProgram .standard false source {}
  IO.print outcome.run.desk.out
  match outcome.failure with
  | none => return 0
  | some e =>
    IO.eprintln e.message
    return 1
