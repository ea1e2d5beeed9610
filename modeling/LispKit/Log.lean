import LispKit.Fault

/-! Logs: lines of three levels, in the order in which they were written. -/

namespace LispKit

inductive Level where
  | plain
  | warning
  | error
  deriving DecidableEq

structure LogLine where
  level : Level
  text : String
  deriving DecidableEq

namespace LogLine

def render (l : LogLine) : String :=
  match l.level with
  | .plain => l.text ++ "\n"
  | .warning => "WARNING: " ++ l.text ++ "\n"
  | .error => "ERROR: " ++ l.text ++ "\n"

def isError (l : LogLine) : Bool :=
  l.level = .error

end LogLine

/-- A log for the user, and one with the details of what was built. -/
structure Logs where
  messages : List LogLine := []
  details : List LogLine := []

namespace Logs

def render (lines : List LogLine) : String :=
  String.join (lines.map LogLine.render)

end Logs

abbrev Logging (E : Type) := ExceptT E (StateM Logs)

namespace Logging

variable {E : Type}

def message (level : Level) (text : String) : Logging E Unit :=
  modify fun logs => { logs with messages := logs.messages ++ [⟨level, text⟩] }

def warn (text : String) : Logging E Unit :=
  message .warning text

def complain (text : String) : Logging E Unit :=
  message .error text

def details (level : Level) (texts : List String) : Logging E Unit :=
  modify fun logs => { logs with details := logs.details ++ texts.map (⟨level, ·⟩) }

def expanded (text : String) : Except Fault String :=
  match Text.expand text with
  | .ok s => .ok s
  | .error e => .error (.template e)

end Logging

end LispKit
