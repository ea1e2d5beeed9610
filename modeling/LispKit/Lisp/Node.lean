import LispKit.Lisp.Operator

/-! Syntax trees of programs. -/

namespace LispKit.Lisp

inductive Kind where
  | statements
  | binary (b : Binary)
  | negation
  | printNumber
  | printBool
  | number
  | bool
  | identifier
  | operands
  | conditional
  | test
  | consequence
  | alternative
  | definition
  | reference
  | parameterList
  | callAnonymous
  | callDefined
  | function
  | parameters
  | body
  | functionName
  | argument
  | arguments
  | null
  | other (name : String)
  deriving DecidableEq

namespace Kind

def binaryName : Binary → String
  | .plus => "PLUS"
  | .minus => "MINUS"
  | .times => "MUL"
  | .divide => "DIV"
  | .modulo => "MOD"
  | .greater => "GREATER"
  | .less => "LESS"
  | .equal => "EQUAL"
  | .and => "AND"
  | .or => "OR"

def name : Kind → String
  | statements => "STMTS"
  | binary b => binaryName b
  | negation => "NOT"
  | printNumber => "PRINT_NUM"
  | printBool => "PRINT_BOOL"
  | number => "NUMBER"
  | bool => "BOOL"
  | identifier => "ID"
  | operands => "EXPS"
  | conditional => "IF_EXP"
  | test => "TEST_EXP"
  | consequence => "THAN_EXP"
  | alternative => "ELSE_EXP"
  | definition => "DEF"
  | reference => "VARIABLE"
  | parameterList => "VARIABLES"
  | callAnonymous => "FUN_CALL_ANONYMOUS"
  | callDefined => "FUN_CALL_DEFINED"
  | function => "FUN_EXP"
  | parameters => "FUN_IDs"
  | body => "FUN_BODY"
  | functionName => "FUN_NAME"
  | argument => "PARAM"
  | arguments => "PARAMS"
  | null => "NULL"
  | other s => s

def known : List Kind :=
  [statements, binary .plus, binary .minus, binary .times, binary .divide, binary .modulo,
    binary .greater, binary .less, binary .equal, binary .and, binary .or, negation, printNumber,
    printBool, number, bool, identifier, operands, conditional, test, consequence, alternative,
    definition, reference, parameterList, callAnonymous, callDefined, function, parameters, body,
    functionName, argument, arguments, null]

def ofName (s : String) : Kind :=
  (known.find? fun k => k.name = s).getD (other s)

end Kind

/-- A node with its number, which tells it apart from all others of a run. -/
inductive Node where
  | mk (kind : Kind) (value : Value) (id : Int) (children : List Node)

namespace Node

def kind : Node → Kind
  | mk k _ _ _ => k

def value : Node → Value
  | mk _ v _ _ => v

def id : Node → Int
  | mk _ _ i _ => i

def children : Node → List Node
  | mk _ _ _ cs => cs

def withKind (k : Kind) : Node → Node
  | mk _ v i cs => mk k v i cs

instance : Inhabited Node := ⟨mk .null .nothing 0 []⟩

mutual

def write : Node → Except Fault String
  | mk kind value _ children => do
    let v ← value.write
    let cs ← writeAll children
    .ok ("Node(" ++ Text.quoted kind.name ++ ", " ++ v ++ ",[" ++ ", ".intercalate cs ++ "])")

def writeAll : List Node → Except Fault (List String)
  | [] => .ok []
  | n :: ns => do
    let s ← write n
    let ss ← writeAll ns
    .ok (s :: ss)

end

def writeOption : Option Node → Except Fault String
  | none => .ok "None"
  | some n => n.write

end Node

end LispKit.Lisp
