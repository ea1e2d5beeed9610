import LispKit.Fault
import LispKit.Grammar.Basic
import LispKit.Text.Decimal
import LispKit.Text.Literal

/-! Declaring a grammar over texts: precedences, productions and the start symbol, with their checks. -/

namespace LispKit.Grammar

structure Place where
  file : String
  line : Int

def Place.text (p : Place) : String :=
  p.file ++ ":" ++ Text.decimal p.line

inductive DeclarationError where
  | nameOfToken (place : Place) (name : String)
  | illegalName (place : Place) (name : String)
  | longLiteral (place : Place) (symbol name : String)
  | illegalSymbol (place : Place) (symbol name : String)
  | nothingAfterMark (place : Place)
  | misplacedMark (place : Place)
  | unknownPrecedence (place : Place) (symbol : String)
  | duplicate (place : Place) (production : String) (previous : Place)
  | repeatedPrecedence (symbol : String)
  | unknownAssociativity
  | undefinedStart (symbol : String)

def DeclarationError.message : DeclarationError → String
  | nameOfToken place name =>
    place.text ++ ": Illegal rule name " ++ Text.quoted name ++ ". Already defined as a token"
  | illegalName place name => place.text ++ ": Illegal rule name " ++ Text.quoted name
  | longLiteral place symbol name =>
    place.text ++ ": Literal token " ++ symbol ++ " in rule " ++ Text.quoted name ++
      " may only be a single character"
  | illegalSymbol place symbol name =>
    place.text ++ ": Illegal name " ++ Text.quoted symbol ++ " in rule " ++ Text.quoted name
  | nothingAfterMark place => place.text ++ ": Syntax error. Nothing follows %prec"
  | misplacedMark place =>
    place.text ++ ": Syntax error. %prec can only appear at the end of a grammar rule"
  | unknownPrecedence place symbol =>
    place.text ++ ": Nothing known about the precedence of " ++ Text.quoted symbol
  | duplicate place production previous =>
    place.text ++ ": Duplicate rule " ++ production ++ ". Previous definition at " ++ previous.text
  | repeatedPrecedence symbol => "Precedence already specified for terminal " ++ Text.quoted symbol
  | unknownAssociativity => "Associativity must be one of 'left','right', or 'nonassoc'"
  | undefinedStart symbol => "start symbol " ++ symbol ++ " undefined"

def isIdentifier (s : String) : Bool :=
  let letters := match s.toList.reverse with
    | '\n' :: rest => rest
    | all => all
  !letters.isEmpty && letters.all fun c => c.isAlphanum || c = '_' || c = '-'

def precedenceMark : String := "%prec"

inductive DeclareFailure where
  | invalid (e : DeclarationError)
  | precedenceAfterProductions
  | fault (f : Fault)

def DeclareFailure.message : DeclareFailure → String
  | invalid e => e.message
  | precedenceAfterProductions => "Must call set_precedence() before add_production()"
  | fault f => f.message

def setPrecedence (g : Grammar String) (symbol associativity : String) (level : Int) :
    Except DeclareFailure (Grammar String) :=
  if g.augmented.isSome || !g.productions.isEmpty then .error .precedenceAfterProductions
  else if g.precedence.contains symbol then .error (.invalid (.repeatedPrecedence symbol))
  else
    match Associativity.ofName? associativity with
    | none => .error (.invalid .unknownAssociativity)
    | some a => .ok { g with precedence := g.precedence.insert symbol ⟨a, level⟩ }

def isQuoted (s : String) : Bool :=
  match s.toList with
  | c :: _ => c = '\'' || c = '"'
  | [] => false

/-- Replaces quoted literals by their character and makes each of them a terminal. What was made a
terminal before a symbol is refused stays one. -/
def resolveSymbols (place : Place) (name : String) :
    List String → Grammar String → Except DeclareFailure (List String) × Grammar String
  | [], g => (.ok [], g)
  | s :: rest, g =>
    let next (symbol : String) (g : Grammar String) :=
      match resolveSymbols place name rest g with
      | (.ok symbols, g) => (.ok (symbol :: symbols), g)
      | (.error e, g) => (.error e, g)
    let plain (_ : Unit) :=
      if isIdentifier s || s = precedenceMark then next s g
      else (.error (.invalid (.illegalSymbol place s name)), g)
    if s.isEmpty then (.error (.fault .textRange), g)
    else if isQuoted s then
      match Text.Literal.value? s with
      | none => plain ()
      | some literal =>
        if 1 < literal.length then (.error (.invalid (.longLiteral place s name)), g)
        else next literal { g with terminals := g.terminals.insertIfNew literal [] }
    else plain ()

def resolvePrecedence (g : Grammar String) (place : Place) (symbols : List String) :
    Except DeclareFailure (Precedence × List String × Grammar String) :=
  if symbols.contains precedenceMark then
    match symbols.reverse with
    | last :: mark :: front =>
      if last = precedenceMark then .error (.invalid (.nothingAfterMark place))
      else if mark ≠ precedenceMark then .error (.invalid (.misplacedMark place))
      else
        match g.precedence.get? last with
        | none => .error (.invalid (.unknownPrecedence place last))
        | some p =>
          let used := if g.usedPrecedence.contains last then g.usedPrecedence
            else g.usedPrecedence ++ [last]
          .ok (p, front.reverse, { g with usedPrecedence := used })
    | _ => .error (.invalid (.nothingAfterMark place))
  else
    match rightmostTerminal g.isTerminal symbols with
    | none => .ok (.default, symbols, g)
    | some t => .ok (g.precedenceOf t, symbols, g)

def findProduction (g : Grammar String) (name : String) (symbols : List String) :
    Option (Production String) :=
  g.productions.find? fun p => p.name = name && p.symbols = symbols

def declare (g : Grammar String) (name : String) (symbols : List String) (place : Place)
    (rule : String) : Except DeclareFailure Unit × Grammar String :=
  if g.isTerminal name then (.error (.invalid (.nameOfToken place name)), g)
  else if !isIdentifier name then (.error (.invalid (.illegalName place name)), g)
  else
    match resolveSymbols place name symbols g with
    | (.error e, g) => (.error e, g)
    | (.ok symbols, g) =>
      match resolvePrecedence g place symbols with
      | .error e => (.error e, g)
      | .ok (precedence, symbols, g) =>
        match findProduction g name symbols with
        | some p => (.error (.invalid (.duplicate place p.text ⟨p.file, p.line⟩)), g)
        | none => (.ok (), g.insert name symbols precedence place.file place.line rule)

/-- Chooses the start symbol; the default is the name of the first production. -/
def declareStart (g : Grammar String) (start : Option String) :
    Except DeclareFailure (Grammar String) :=
  match start.orElse fun _ => g.productions.head?.map Production.name with
  | none => .error (.fault .listRange)
  | some s => if g.isNonterminal s then .ok (g.setStart s) else .error (.invalid (.undefinedStart s))

end LispKit.Grammar
