import LispKit.Grammar.Basic

/-! The symbols of the language's grammar. -/

namespace LispKit.Lisp

inductive Symbol where
  | number
  | bool
  | plus
  | minus
  | times
  | divide
  | greater
  | less
  | equal
  | identifier
  | open_
  | close
  | printNumber
  | printBool
  | modulo
  | and
  | or
  | not
  | define
  | if_
  | fun_
  | program
  | statements
  | statement
  | printStatement
  | expression
  | expressions
  | numericOperation
  | logicalOperation
  | definition
  | reference
  | references
  | function
  | functionName
  | parameters
  | body
  | argument
  | arguments
  | call
  | conditional
  | test
  | consequence
  | alternative
  | empty
  | endOfInput
  | error
  | vanished
  | dot
  | start
  | other (name : String)
  deriving DecidableEq

namespace Symbol

def name : Symbol → String
  | number => "NUMBER"
  | bool => "BOOL"
  | plus => "PLUS"
  | minus => "MINUS"
  | times => "MUL"
  | divide => "DIV"
  | greater => "Greater"
  | less => "Less"
  | equal => "Equal"
  | identifier => "ID"
  | open_ => "LPAREN"
  | close => "RPAREN"
  | printNumber => "PRINT_NUM"
  | printBool => "PRINT_BOOL"
  | modulo => "MOD"
  | and => "AND"
  | or => "OR"
  | not => "NOT"
  | define => "DEF"
  | if_ => "IF"
  | fun_ => "FUN"
  | program => "PROGRAM"
  | statements => "STMTS"
  | statement => "STMT"
  | printStatement => "PRINT_STMT"
  | expression => "EXP"
  | expressions => "EXPS"
  | numericOperation => "NUM_OP"
  | logicalOperation => "LOGICAL_OP"
  | definition => "DEF_STMT"
  | reference => "VARIABLE"
  | references => "VARIABLES"
  | function => "FUN_EXP"
  | functionName => "FUN_NAME"
  | parameters => "FUN_IDs"
  | body => "FUN_BODY"
  | argument => "PARAM"
  | arguments => "PARAMS"
  | call => "FUN_CALL"
  | conditional => "IF_EXP"
  | test => "TEST_EXP"
  | consequence => "THAN_EXP"
  | alternative => "ELSE_EXP"
  | empty => "empty"
  | endOfInput => "$end"
  | error => "error"
  | vanished => "<empty>"
  | dot => "."
  | start => "S'"
  | other s => s

instance : Vocabulary Symbol where
  label := name
  endMark := endOfInput
  errorMark := error
  emptyMark := vanished
  dotMark := dot
  startMark := start

def terminals : List Symbol :=
  [and, bool, define, divide, equal, fun_, greater, identifier, if_, open_, less, minus, modulo,
    times, not, number, or, plus, printBool, printNumber, close]

def ofTokenType (type : String) : Symbol :=
  (terminals.find? fun s => s.name = type).getD (other type)

end Symbol

def productions : List (Symbol × List Symbol) :=
  [(.program, [.statements]),
    (.statements, [.statement]),
    (.statements, [.statement, .statements]),
    (.statement, [.expression]),
    (.statement, [.printStatement]),
    (.statement, [.definition]),
    (.printStatement, [.open_, .printNumber, .expression, .close]),
    (.printStatement, [.open_, .printBool, .expression, .close]),
    (.expression, [.number]),
    (.expression, [.bool]),
    (.expression, [.reference]),
    (.expression, [.numericOperation]),
    (.expression, [.logicalOperation]),
    (.expression, [.function]),
    (.expression, [.call]),
    (.expression, [.conditional]),
    (.expressions, [.expression]),
    (.expressions, [.expression, .expressions]),
    (.numericOperation, [.open_, .plus, .expression, .expressions, .close]),
    (.numericOperation, [.open_, .minus, .expression, .expression, .close]),
    (.numericOperation, [.open_, .times, .expression, .expressions, .close]),
    (.numericOperation, [.open_, .divide, .expression, .expression, .close]),
    (.numericOperation, [.open_, .modulo, .expression, .expression, .close]),
    (.numericOperation, [.open_, .greater, .expression, .expression, .close]),
    (.numericOperation, [.open_, .less, .expression, .expression, .close]),
    (.numericOperation, [.open_, .equal, .expression, .expressions, .close]),
    (.logicalOperation, [.open_, .and, .expression, .expressions, .close]),
    (.logicalOperation, [.open_, .or, .expression, .expressions, .close]),
    (.logicalOperation, [.open_, .not, .expression, .close]),
    (.definition, [.open_, .define, .reference, .expression, .close]),
    (.definition, [.open_, .define, .functionName, .function, .close]),
    (.reference, [.identifier]),
    (.references, [.reference, .references]),
    (.references, [.empty]),
    (.function, [.open_, .fun_, .parameters, .body, .close]),
    (.functionName, [.identifier]),
    (.parameters, [.open_, .references, .close]),
    (.body, [.expression]),
    (.argument, [.expression]),
    (.arguments, [.argument, .arguments]),
    (.arguments, [.empty]),
    (.call, [.open_, .function, .arguments, .close]),
    (.call, [.open_, .functionName, .arguments, .close]),
    (.conditional, [.open_, .if_, .test, .consequence, .alternative, .close]),
    (.test, [.expression]),
    (.consequence, [.expression]),
    (.alternative, [.expression]),
    (.empty, [])]

/-- The grammar of programs; earlier productions are declared on earlier lines. -/
def grammar : Grammar Symbol :=
  let g := productions.zipIdx.foldl (fun g ((name, symbols), line) =>
    g.insert name symbols .default "" line "") (Grammar.ofTerminals Symbol.terminals)
  g.setStart .program

end LispKit.Lisp
