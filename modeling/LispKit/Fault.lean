import LispKit.Text.Quoted
import LispKit.Text.Template

/-! Faults: what can go wrong inside an operation, apart from the errors that its own domain names. -/

namespace LispKit

inductive Fault where
  | listRange
  | tupleRange
  | textRange
  | emptyPop
  /-- A look-up failed; the key is given in its written form. -/
  | missingKey (key : String)
  | missingAttribute (owner name : String)
  | unsized (type : String)
  | unindexed (type : String)
  | uncalled (type : String)
  | unhashable (type : String)
  | unpacked (type : String)
  | notIndex (type : String)
  | unordered (operator left right : String)
  | unsupported (operator left right : String)
  | unrepeated (type : String)
  | unusedArgument
  | unjoined (place : Nat) (type : String)
  | notText (type : String)
  | typeMismatch
  | divisionByZero
  | moduloByZero
  | malformedNumeral (text : String)
  | longNumeral (digits : Nat)
  | longNumber
  | template (e : Text.TemplateError)
  | unbound (name : String)
  | tooDeep
  deriving DecidableEq

namespace Fault

def message : Fault → String
  | listRange => "list index out of range"
  | tupleRange => "tuple index out of range"
  | textRange => "string index out of range"
  | emptyPop => "pop from empty list"
  | missingKey key => key
  | missingAttribute owner name =>
    "'" ++ owner ++ "' object has no attribute '" ++ name ++ "'"
  | unsized type => "object of type '" ++ type ++ "' has no len()"
  | unindexed type => "'" ++ type ++ "' object is not subscriptable"
  | uncalled type => "'" ++ type ++ "' object is not callable"
  | unhashable type => "unhashable type: '" ++ type ++ "'"
  | unpacked type => "cannot unpack non-iterable " ++ type ++ " object"
  | notIndex type => "list indices must be integers or slices, not " ++ type
  | unordered operator left right =>
    "'" ++ operator ++ "' not supported between instances of '" ++ left ++ "' and '" ++ right ++ "'"
  | unsupported operator left right =>
    "unsupported operand type(s) for " ++ operator ++ ": '" ++ left ++ "' and '" ++ right ++ "'"
  | unrepeated type => "can't multiply sequence by non-int of type '" ++ type ++ "'"
  | unusedArgument => "not all arguments converted during string formatting"
  | unjoined place type =>
    "sequence item " ++ Nat.repr place ++ ": expected str instance, " ++ type ++ " found"
  | notText type => "expected string or bytes-like object, got '" ++ type ++ "'"
  | typeMismatch => ""
  | divisionByZero => "integer division or modulo by zero"
  | moduloByZero => "integer modulo by zero"
  | malformedNumeral text => "invalid literal for int() with base 10: " ++ Text.quoted text
  | longNumeral digits =>
    "Exceeds the limit (4300 digits) for integer string conversion: value has " ++ Nat.repr digits ++
      " digits; use sys.set_int_max_str_digits() to increase the limit"
  | longNumber =>
    "Exceeds the limit (4300 digits) for integer string conversion; " ++
      "use sys.set_int_max_str_digits() to increase the limit"
  | template e => e.message
  | unbound name => "cannot access local variable '" ++ name ++ "' where it is not associated with a value"
  | tooDeep => ""

end Fault

end LispKit
