import LispKit.Lisp.Value

/-! Operators and what they make of two values of one type. -/

namespace LispKit.Lisp

inductive Binary where
  | plus
  | minus
  | times
  | divide
  | modulo
  | greater
  | less
  | equal
  | and
  | or
  deriving DecidableEq

/-- An operator whose operands are being evaluated. -/
inductive Operator where
  | binary (b : Binary)
  | not
  | other (name : String)
  deriving DecidableEq

namespace Binary

def name : Binary → String
  | plus => "+"
  | minus => "-"
  | times => "*"
  | divide => "/"
  | modulo => "%"
  | greater => ">"
  | less => "<"
  | equal => "="
  | and => "and"
  | or => "or"

def sign : Binary → String
  | divide => "//"
  | b => b.name

def integer (b : Binary) (m n : Int) : Except Fault Value :=
  match b with
  | plus => .ok (.int (m + n))
  | minus => .ok (.int (m - n))
  | times => .ok (.int (m * n))
  | divide => if n = 0 then .error .divisionByZero else .ok (.int (Int.fdiv m n))
  | modulo => if n = 0 then .error .moduloByZero else .ok (.int (Int.fmod m n))
  | greater => .ok (.bool (n < m))
  | less => .ok (.bool (m < n))
  | equal => .ok (.bool (m == n))
  | and => .ok (.int (if m = 0 then m else n))
  | or => .ok (.int (if m = 0 then n else m))

/-- What an operator makes of other values: comparisons of texts, and texts in a row. The texts of a program are names, which
have no directives, so the remainder of two texts leaves an argument over; other texts never come here. -/
def general (b : Binary) (x y : Value) : Except Fault Value :=
  match b with
  | plus =>
    match x, y with
    | .text s, .text t => .ok (.text (s ++ t))
    | _, _ => .error (.unsupported b.sign x.typeName y.typeName)
  | times =>
    match x, y with
    | .text _, .text _ => .error (.unrepeated y.typeName)
    | _, _ => .error (.unsupported b.sign x.typeName y.typeName)
  | modulo =>
    match x, y with
    | .text _, .text _ => .error .unusedArgument
    | _, _ => .error (.unsupported b.sign x.typeName y.typeName)
  | greater =>
    match x, y with
    | .text s, .text t => .ok (.bool (t < s))
    | _, _ => .error (.unordered b.sign x.typeName y.typeName)
  | less =>
    match x, y with
    | .text s, .text t => .ok (.bool (s < t))
    | _, _ => .error (.unordered b.sign x.typeName y.typeName)
  | equal => .ok (.bool (x.same y))
  | and => .ok (if x.isTrue then y else x)
  | or => .ok (if x.isTrue then x else y)
  | _ => .error (.unsupported b.sign x.typeName y.typeName)

/-- Combines two values of one type. Conjunction and disjunction yield one of them; arithmetic on truth
values is that of the integers they count as. -/
def combine (b : Binary) (x y : Value) : Except Fault Value :=
  if b = and || b = or then general b x y
  else
    match x.number?, y.number? with
    | some m, some n => integer b m n
    | _, _ => general b x y

end Binary

namespace Operator

def name : Operator → String
  | binary b => b.name
  | not => "not"
  | other s => s

def ofName : String → Operator
  | "+" => binary .plus
  | "-" => binary .minus
  | "*" => binary .times
  | "/" => binary .divide
  | "%" => binary .modulo
  | ">" => binary .greater
  | "<" => binary .less
  | "=" => binary .equal
  | "and" => binary .and
  | "or" => binary .or
  | "not" => not
  | s => other s

end Operator

end LispKit.Lisp
