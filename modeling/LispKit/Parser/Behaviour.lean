import LispKit.Declaration
import LispKit.Limits
import LispKit.Parser.Engine

/-! Ready-made behaviours of rules and error functions over data, and parsing of given tokens with them. -/

namespace LispKit.Parser

inductive RuleResult where
  /-- The name of the production, then the values. -/
  | tree
  | copy
  | previous
  | firstTwo
  | spans
  | placed (line position : Int)
  | nothing

structure RuleAction where
  raises : Bool := false
  raisesOn : Option Datum := none
  prints : Bool := false
  settles : Bool := false
  result : RuleResult := .tree

inductive ErrorAction where
  | log
  | settle
  | skip
  | sync (type : String)
  | restart

inductive Behaviour where
  | rule (a : RuleAction)
  | onError (a : ErrorAction)

abbrev DatumSymbol := StackSymbol String Datum

/-- Tokens that are still to come, the place reached, and what was printed. -/
structure TokenFeed where
  rest : List DatumSymbol
  line : Int := 1
  position : Int := 0
  out : String := ""

namespace TokenFeed

def next (f : TokenFeed) : Option DatumSymbol × TokenFeed :=
  match f.rest with
  | [] => (none, f)
  | t :: rest =>
    (some t, { f with rest := rest, line := t.line.getD f.line, position := t.position.getD f.position })

def print (f : TokenFeed) (line : String) : TokenFeed :=
  { f with out := f.out ++ line ++ "\n" }

def syncFrom (type : String) :
    DatumSymbol → List DatumSymbol → TokenFeed → Option DatumSymbol × TokenFeed
  | t, rest, f =>
    if t.type = type then (some t, f)
    else
      match rest with
      | [] => (none, { f with rest := [] })
      | s :: more => syncFrom type s more (f.next).2

end TokenFeed

namespace RuleAction

def spanOf (s : DatumSymbol) : Datum :=
  let line := s.line.getD 0
  let position := s.position.getD 0
  .list [.int line, .int position, .list [.int line, .int (s.endLine.getD line)],
    .list [.int position, .int (s.endPosition.getD position)]]

def treeOf (r : Reduction String Datum) : Except Fault Datum := do
  let values ← r.arguments.mapM StackSymbol.getValue
  .ok (.list (.text r.production.name :: values))

def firstValue (r : Reduction String Datum) : Except Fault Datum :=
  match r.arguments with
  | [] => .error .listRange
  | s :: _ => s.getValue

def apply (result : RuleResult) (r : Reduction String Datum) : Except Fault DatumSymbol := do
  let s := r.symbol
  let valued (d : Datum) := { s with value := some d }
  match result with
  | .nothing => .ok s
  | .tree => (treeOf r).map valued
  | .copy => (firstValue r).map valued
  | .previous =>
    match r.below with
    | [] => .error .listRange
    | top :: _ => top.getValue.map fun d => valued (.list [.text "prev", d])
  | .firstTwo =>
    let values ← (r.arguments.take 2).mapM StackSymbol.getValue
    .ok (valued (.list values))
  | .spans =>
    let values ← r.arguments.mapM StackSymbol.getValue
    .ok (valued (.list (.text r.production.name :: (s :: r.arguments).map spanOf ++ values)))
  | .placed line position =>
    (treeOf r).map fun d => { valued d with line := some line, position := some position }

def asksRecovery (a : RuleAction) (r : Reduction String Datum) : Except Fault Bool :=
  if a.raises then .ok true
  else
    match a.raisesOn with
    | none => .ok false
    | some d => (firstValue r).map d.same

def run (a : RuleAction) (r : Reduction String Datum) (f : TokenFeed) :
    RuleReply String Datum Fault × TokenFeed :=
  match a.asksRecovery r with
  | .error e => (.failed e, f)
  | .ok true => (.raised, f)
  | .ok false =>
    let f := if a.prints then
        f.print (r.production.name ++ " " ++ Nat.repr (r.arguments.length + 1))
      else f
    match apply a.result r with
    | .error e => (.failed e, f)
    | .ok s => (.done s a.settles, f)

end RuleAction

namespace ErrorAction

def run (a : ErrorAction) (offending : Option DatumSymbol) (f : TokenFeed) :
    Except Fault (ErrorReply String Datum) × TokenFeed :=
  match offending with
  | none => (.ok {}, f.print "p_error EOF")
  | some s =>
    match s.getValue.bind Datum.write with
    | .error e => (.error e, f)
    | .ok written =>
      let f := f.print ("p_error " ++ s.type ++ " " ++ written)
      match a with
      | log => (.ok {}, f)
      | settle => (.ok { recovered := true }, f)
      | skip =>
        let (t, f) := f.next
        (.ok { token := t, recovered := true }, f)
      | sync type =>
        let (t, f) := TokenFeed.syncFrom type s f.rest f
        (.ok { token := t, recovered := true }, f)
      | restart => (.ok { restarted := true }, f)

end ErrorAction

def tokenDatum (s : DatumSymbol) : Datum :=
  .token s.type (s.value.getD .nothing) s.line s.position

def behaviourHost (ds : Declarations Behaviour) : Host String Datum TokenFeed Fault where
  nextToken f := (.ok (f.next).1, (f.next).2)
  place f := (f.line, f.position)
  apply r f :=
    match ds.routine? r.production.rule with
    | some { behaviour := .rule a, .. } => a.run r f
    | _ => (.failed (.uncalled "NoneType"), f)
  onError :=
    match ds.routine? "p_error" with
    | some { behaviour := .onError a, .. } => some a.run
    | _ => none
  display d := d.write.map (d.typeName, ·)
  nothing := .nothing
  errorValue := .text "error"
  ofToken := tokenDatum

def parseTokens (ds : Declarations Behaviour) (t : Tables String) (m : Mode) (settled : Bool)
    (tokens : List DatumSymbol) : Progress String Datum TokenFeed Fault :=
  parse (behaviourHost ds) t m Limits.standard.steps settled { rest := tokens }

end LispKit.Parser
