import LispKit.Scanner.Declared

/-! Building a scanner from declarations. -/

namespace LispKit.Scanner

variable {V σ : Type}

structure BuildOptions where
  flags : Pattern.Flags := { verbose := true }
  debug : Bool := false

/-- A scanner with what was used to build it. -/
structure Built (V σ : Type) where
  scanner : Scanner V σ
  states : List String
  allTokens : List String

namespace Build

def detail (opts : BuildOptions) (lines : List String) : Building Unit :=
  if opts.debug then Logging.details .plain lines else pure ()

def ruleTexts (d : Declared V σ) (state : String) : List (String × String) :=
  ((d.routines.getD state []).map fun (name, r) => (name, r.doc.getD "")) ++ d.texts.getD state []

/-- The target of a named group. A group that is not a rule has none; one that is named like another
attribute, unless that is nothing, cannot have one. -/
def targetOf (ds : Declarations (Handler V σ)) (tokenNames : Registry String String)
    (group : String × Nat) : Option (Option (Nat × Target V σ)) :=
  let (name, number) := group
  match ds.get? name with
  | none | some (.value .nothing) => some none
  | some (.routine r) => (tokenNames.get? name).map fun type => some (number, .handled type r.behaviour)
  | some (.value _) =>
    match Text.placeOf? Declared.ignoreWord name.toList with
    | some (_ + 1) => some (some (number, .ignored))
    | _ => (tokenNames.get? name).map fun type => some (number, .token type)

def isSet (ds : Declarations (Handler V σ)) (name : String) : Bool :=
  match ds.get? name with
  | none | some (.value .nothing) => false
  | _ => true

/-- One pattern for some rules, if what they are together can be read and has named groups. -/
def master? (ds : Declarations (Handler V σ)) (tokenNames : Registry String String)
    (compile : String → Option Pattern.Compiled) (groups : List String) : Option (Master V σ) := do
  let text := "|".intercalate groups
  let compiled ← compile text
  guard (compiled.names ≠ [])
  let targets ← compiled.names.mapM (targetOf ds tokenNames)
  let named := compiled.names.filter fun (name, _) => isSet ds name
  some ⟨text, compiled, targets.filterMap id, named.map Prod.fst⟩

/-- Patterns for all rules: one if possible, otherwise those of two halves. Two rules are not divided
any further. -/
def masters (ds : Declarations (Handler V σ)) (tokenNames : Registry String String)
    (compile : String → Option Pattern.Compiled) : Nat → List String → Except Fault (List (Master V σ))
  | _, [] => .ok []
  | fuel, groups =>
    match master? ds tokenNames compile groups with
    | some m => .ok [m]
    | none =>
      match fuel with
      | 0 => .error .tooDeep
      | fuel + 1 =>
        if groups.length ≤ 2 then .error .tooDeep
        else do
          let half := groups.length / 2 + 1
          let left ← masters ds tokenNames compile fuel (groups.take half)
          let right ← masters ds tokenNames compile fuel (groups.drop half)
          .ok (left ++ right)

def mastersOf (ds : Declarations (Handler V σ)) (d : Declared V σ) (opts : BuildOptions)
    (state : String) : Building (String × List (Master V σ)) := do
  let groups := (ruleTexts d state).map fun (name, pattern) => Declared.groupText name pattern
  let ms ← faulty (masters ds d.tokenNames (Pattern.compile? opts.flags) groups.length groups)
  detail opts (ms.zipIdx.map fun (m, i) =>
    "lex: state '" ++ state ++ "' : regex[" ++ Nat.repr i ++ "] = '" ++ m.text ++ "'")
  pure (state, ms)

def extendMasters (d : Declared V σ) (all : Registry String (List (Master V σ))) :
    Registry String (List (Master V σ)) :=
  let initial := all.getD initialState []
  ⟨all.entries.map fun (state, ms) =>
    if state ≠ initialState && d.states.get? state = some .inclusive then (state, ms ++ initial)
    else (state, ms)⟩

def literalText (d : Declared V σ) : String :=
  String.join (((Declared.literalItems? d.literals).getD []).map fun c => match c with
    | .text s => s
    | _ => "")

def handlers (r : Registry String (Routine (Handler V σ))) : Registry String (Handler V σ) :=
  ⟨r.entries.map fun (s, f) => (s, f.behaviour)⟩

/-- Warns about exclusive states that lack an error rule, or ignored characters where the initial
state has some. -/
def warnState (d : Declared V σ) (state : String) (kind : StateKind) : Building Unit :=
  match kind with
  | .inclusive => pure ()
  | .exclusive => do
    if (d.onError.get? state).isNone then
      Logging.warn ("No error rule is defined for exclusive state " ++ Text.quoted state)
    if (d.ignored.get? state).isNone && !(d.ignored.getD initialState "").isEmpty then
      Logging.warn ("No ignore rule is defined for exclusive state " ++ Text.quoted state)

def inherit {α : Type} (d : Declared V σ) (initial : α) (r : Registry String α) : Registry String α :=
  d.states.entries.foldl (fun r (state, kind) =>
    if kind = .inclusive then r.insertIfNew state initial else r) r

def rulesOf (d : Declared V σ) (all : Registry String (List (Master V σ))) : Rules V σ :=
  let errors : Registry String (Option (Handler V σ)) :=
    ⟨(handlers d.onError).entries.map fun (s, h) => (s, some h)⟩
  { masters := extendMasters d all
    ignored := inherit d (d.ignored.getD initialState "") d.ignored
    onError := inherit d (errors.getD initialState none) errors
    onEnd := handlers d.onEnd
    literals := literalText d }

def start (rules : Rules V σ) : Scanner V σ :=
  { rules := rules
    state := initialState
    masters := rules.masters.getD initialState []
    ignored := rules.ignored.getD initialState ""
    onError := rules.onError.getD initialState none
    onEnd := rules.onEnd.get? initialState }

def headLines (d : Declared V σ) : List String :=
  ["lex: tokens   = " ++ d.tokens.written, "lex: literals = " ++ d.literals.written,
    "lex: states   = " ++ (Datum.record d.states.keys
      (d.states.values.map fun k => .text k.name)).written]

def ruleLines (d : Declared V σ) (state : String) : List String :=
  (ruleTexts d state).map fun (name, pattern) =>
    "lex: Adding rule " ++ name ++ " -> '" ++ pattern ++ "' (state '" ++ state ++ "')"

def tokenTexts (d : Declared V σ) : List String :=
  d.tokenItems.filterMap fun t => match t with
    | .text s => some s
    | _ => none

def eachOnce (xs : List String) : List String :=
  xs.foldl (fun seen x => if seen.contains x then seen else seen ++ [x]) []

def build (ds : Declarations (Handler V σ)) (opts : BuildOptions) : Building (Built V σ) := do
  let d ← Declared.read ds
  d.check ds opts.flags
  detail opts (headLines d ++ d.states.keys.flatMap (ruleLines d) ++
    ["lex: ==== MASTER REGEXS FOLLOW ===="])
  let all ← d.states.keys.mapM (mastersOf ds d opts)
  if (d.onError.get? initialState).isNone then Logging.warn "No t_error rule is defined"
  d.states.entries.forM fun (state, kind) => warnState d state kind
  let rules := rulesOf d ⟨all⟩
  pure ⟨start rules, d.states.keys,
    eachOnce (tokenTexts d ++ rules.literals.toList.map String.singleton)⟩

end Build

def build (ds : Declarations (Handler V σ)) (opts : BuildOptions) : Except BuildError (Built V σ) × Logs :=
  (Build.build ds opts).run.run {}

end LispKit.Scanner
