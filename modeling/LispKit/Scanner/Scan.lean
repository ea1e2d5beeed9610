import LispKit.Limits
import LispKit.Scanner.Basic

/-! Scanning: the next token of the input. -/

namespace LispKit.Scanner

variable {V σ : Type}

/-- What a call for a token yields, and the scanner and the surroundings after it. -/
structure Outcome (V σ : Type) where
  result : Except ScanError (Option (Token V))
  scanner : Scanner V σ
  host : σ

def Effect.perform (e : Effect V σ) (t : Token V) (sc : Scanner V σ) (host : σ) :
    Except ScanError (Token V) × Scanner V σ × σ :=
  match e with
  | .edit f =>
    match f t host with
    | (.ok t, host) => (.ok t, sc, host)
    | (.error e, host) => (.error (.fault e), sc, host)
  | .countLines f =>
    match f t with
    | .ok n => (.ok t, { sc with line := sc.line + n }, host)
    | .error e => (.error (.fault e), sc, host)
  | .begin state =>
    match sc.begin state with
    | .ok sc => (.ok t, sc, host)
    | .error e => (.error e, sc, host)
  | .push state =>
    let (r, sc) := sc.push state
    (r.map fun _ => t, sc, host)
  | .pop =>
    let (r, sc) := sc.pop
    (r.map fun _ => t, sc, host)
  | .skip n => (.ok t, sc.skip n, host)

def performAll : List (Effect V σ) → Token V → Scanner V σ → σ →
    Except ScanError (Token V) × Scanner V σ × σ
  | [], t, sc, host => (.ok t, sc, host)
  | e :: rest, t, sc, host =>
    match e.perform t sc host with
    | (.ok t, sc, host) => performAll rest t sc host
    | (.error e, sc, host) => (.error e, sc, host)

def Script.run (s : Script V σ) (next : Scanner V σ → σ → Outcome V σ) (t : Token V)
    (sc : Scanner V σ) (host : σ) : Outcome V σ :=
  match performAll s.effects t sc host with
  | (.error e, sc, host) => ⟨.error e, sc, host⟩
  | (.ok t, sc, host) =>
    match s.ending with
    | .keep => ⟨.ok (some t), sc, host⟩
    | .drop => ⟨.ok none, sc, host⟩
    | .feed text =>
      if sc.text = some text.toList then ⟨.ok none, sc, host⟩ else next (sc.input text.toList) host

def situation (sc : Scanner V σ) : Situation :=
  ⟨sc.state, sc.stack, sc.text, sc.position, sc.line⟩

def Handler.run (h : Handler V σ) (next : Scanner V σ → σ → Outcome V σ) (t : Token V)
    (sc : Scanner V σ) (host : σ) : Outcome V σ :=
  (h.call t sc.situation host).run next t sc host

/-- A match of one of the patterns: the number of characters and the target. -/
def firstMatch (position : Nat) (rest : List Char) :
    List (Master V σ) → Option (Nat × Except Fault (Target V σ))
  | [] => none
  | m :: ms =>
    match m.compiled.match? position rest with
    | none => firstMatch position rest ms
    | some found => some (found.length, m.target found.lastGroup)

def indexOf? (length : Nat) (position : Int) : Option Nat :=
  if 0 ≤ position then some position.toNat
  else if -(length : Int) ≤ position then some (position + length).toNat else none

def tailFrom (text : List Char) (position : Int) : List Char :=
  text.drop ((indexOf? text.length position).getD 0)

/-- How the value of a token is made from matched text. -/
structure Maker (V : Type) where
  ofText : String → V

structure Window where
  text : List Char
  length : Nat

def atEnd (mk : Maker V) (next : Scanner V σ → σ → Outcome V σ) (position : Int) (sc : Scanner V σ)
    (host : σ) : Outcome V σ :=
  match sc.onEnd with
  | some h =>
    let sc := { sc with position := position }
    h.run next ⟨"eof", mk.ofText "", sc.line, position⟩ sc host
  | none =>
    let sc := { sc with position := position + 1 }
    ⟨if sc.text.isNone then .error .noInput else .ok none, sc, host⟩

/-- One round of scanning: a token or an error, or the position and the ignored characters to go on with. -/
inductive Round (V σ : Type) where
  | done (o : Outcome V σ)
  | more (position : Int) (ignored : String) (sc : Scanner V σ) (host : σ)

def afterHandler (o : Outcome V σ) (ignored : Scanner V σ → String) : Round V σ :=
  match o.result with
  | .ok none => .more o.scanner.position (ignored o.scanner) o.scanner o.host
  | _ => .done o

def illegal (mk : Maker V) (next : Scanner V σ → σ → Outcome V σ) (c : Char) (position : Int)
    (ignored : String) (sc : Scanner V σ) (host : σ) : Round V σ :=
  let sc := { sc with position := position }
  match sc.onError with
  | none => .done ⟨.error (.illegalCharacter c position), sc, host⟩
  | some h =>
    let value := String.ofList (tailFrom (sc.text.getD []) position)
    let o := h.run next ⟨"error", mk.ofText value, sc.line, position⟩ sc host
    match o.result with
    | .error _ => .done o
    | .ok _ =>
      if o.scanner.position = position then .done ⟨.error (.stuck c), o.scanner, o.host⟩
      else afterHandler o fun _ => ignored

def matched (mk : Maker V) (next : Scanner V σ → σ → Outcome V σ) (lexeme : List Char)
    (position finish : Int) (target : Except Fault (Target V σ)) (ignored : String)
    (sc : Scanner V σ) (host : σ) : Round V σ :=
  let token (type : String) : Token V := ⟨type, mk.ofText (String.ofList lexeme), sc.line, position⟩
  match target with
  | .error f => .done ⟨.error (.fault f), sc, host⟩
  | .ok .ignored => .more finish ignored sc host
  | .ok (.token type) => .done ⟨.ok (some (token type)), { sc with position := finish }, host⟩
  | .ok (.handled type h) =>
    afterHandler (h.run next (token type) { sc with position := finish } host) Scanner.ignored

def round (mk : Maker V) (next : Scanner V σ → σ → Outcome V σ) (w : Window) (position : Int)
    (ignored : String) (sc : Scanner V σ) (host : σ) : Round V σ :=
  match indexOf? w.text.length position with
  | none => .done ⟨.error (.fault .textRange), sc, host⟩
  | some index =>
    match w.text.drop index with
    | [] => .done ⟨.error (.fault .textRange), sc, host⟩
    | c :: rest =>
      if ignored.contains c then .more (position + 1) ignored sc host
      else
        let start := position.toNat
        let front := if 0 ≤ position then c :: rest else w.text
        match firstMatch start front sc.masters with
        | some (length, target) =>
          matched mk next (front.take length) position (start + length) target ignored sc host
        | none =>
          if sc.rules.literals.contains c then
            let t : Token V := ⟨String.singleton c, mk.ofText (String.singleton c), sc.line, position⟩
            .done ⟨.ok (some t), { sc with position := position + 1 }, host⟩
          else illegal mk next c position ignored sc host

def rounds (mk : Maker V) (next : Scanner V σ → σ → Outcome V σ) (w : Window) :
    Nat → Int → String → Scanner V σ → σ → Outcome V σ
  | 0, _, _, sc, host => ⟨.error (.fault .tooDeep), sc, host⟩
  | n + 1, position, ignored, sc, host =>
    if position < w.length then
      match round mk next w position ignored sc host with
      | .done o => o
      | .more position ignored sc host => rounds mk next w n position ignored sc host
    else atEnd mk next position sc host

/-- The next token, with a bound on how deeply handlers may feed further text. -/
def tokenWithin (mk : Maker V) (steps : Nat) : Nat → Scanner V σ → σ → Outcome V σ
  | 0, sc, host => ⟨.error (.fault .tooDeep), sc, host⟩
  | depth + 1, sc, host =>
    match sc.text with
    | none =>
      if sc.position < sc.length then ⟨.error (.fault (.unindexed "NoneType")), sc, host⟩
      else atEnd mk (tokenWithin mk steps depth) sc.position sc host
    | some text =>
      rounds mk (tokenWithin mk steps depth) ⟨text, sc.length⟩ steps sc.position sc.ignored sc host

def token (mk : Maker V) (limits : Limits) (sc : Scanner V σ) (host : σ) : Outcome V σ :=
  tokenWithin mk limits.steps limits.depth sc host

/-- Scans to the end of the input and lets the surroundings note each token before the next is
scanned. The first number bounds the tokens. -/
def visit (mk : Maker V) (limits : Limits) (note : Token V → σ → Except Fault σ) :
    Nat → Scanner V σ → σ → Except ScanError Unit × Scanner V σ × σ
  | 0, sc, host => (.error (.fault .tooDeep), sc, host)
  | n + 1, sc, host =>
    let o := token mk limits sc host
    match o.result with
    | .error e => (.error e, o.scanner, o.host)
    | .ok none => (.ok (), o.scanner, o.host)
    | .ok (some t) =>
      match note t o.host with
      | .error f => (.error (.fault f), o.scanner, o.host)
      | .ok host => visit mk limits note n o.scanner host

/-- All tokens up to the end of the input, or those before an error. -/
def tokens (mk : Maker V) (limits : Limits) : Nat → Scanner V σ → σ →
    List (Token V) × Except ScanError Unit × Scanner V σ × σ
  | 0, sc, host => ([], .error (.fault .tooDeep), sc, host)
  | n + 1, sc, host =>
    let o := token mk limits sc host
    match o.result with
    | .error e => ([], .error e, o.scanner, o.host)
    | .ok none => ([], .ok (), o.scanner, o.host)
    | .ok (some t) =>
      let (ts, r, sc, host) := tokens mk limits n o.scanner o.host
      (t :: ts, r, sc, host)

end LispKit.Scanner
