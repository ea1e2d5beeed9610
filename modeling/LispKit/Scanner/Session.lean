import LispKit.Scanner.Scan

/-! Sessions: copies of one scanner, which share their saved states. -/

namespace LispKit.Scanner

variable {V σ : Type}

structure Session (V σ : Type) where
  scanners : List (Scanner V σ)
  stack : List String
  current : Nat
  host : σ

namespace Session

def ofScanner (sc : Scanner V σ) (host : σ) : Session V σ :=
  ⟨[sc], sc.stack, 0, host⟩

def get? (s : Session V σ) (i : Nat) : Option (Scanner V σ) :=
  s.scanners[i]?.map fun sc => { sc with stack := s.stack }

def set (s : Session V σ) (i : Nat) (sc : Scanner V σ) : Session V σ :=
  { s with scanners := s.scanners.set i sc, stack := sc.stack }

def add (s : Session V σ) (sc : Scanner V σ) : Session V σ :=
  { s with scanners := s.scanners ++ [sc], current := s.scanners.length }

def copy (s : Session V σ) : Session V σ :=
  match s.get? s.current with
  | none => s
  | some sc => s.add sc

def copyRebound (s : Session V σ) : Except Fault (Session V σ) :=
  match s.get? s.current with
  | none => .ok s
  | some sc => sc.rebound.map s.add

def change (s : Session V σ) (i : Nat) (f : Scanner V σ → Except ScanError Unit × Scanner V σ) :
    Except ScanError Unit × Session V σ :=
  match s.get? i with
  | none => (.ok (), s)
  | some sc =>
    let (r, sc) := f sc
    (r, s.set i sc)

def input (s : Session V σ) (i : Nat) (text : String) : Session V σ :=
  (s.change i fun sc => (.ok (), sc.input text.toList)).2

def token (mk : Maker V) (limits : Limits) (i : Nat) (s : Session V σ) :
    Except ScanError (Option (Token V)) × Session V σ :=
  match s.get? i with
  | none => (.ok none, s)
  | some sc =>
    let o := Scanner.token mk limits sc s.host
    (o.result, { s.set i o.scanner with host := o.host })

def tokens (mk : Maker V) (limits : Limits) (i : Nat) (s : Session V σ) :
    List (Token V) × Except ScanError Unit × Session V σ :=
  match s.get? i with
  | none => ([], .ok (), s)
  | some sc =>
    let (ts, r, sc, host) := Scanner.tokens mk limits limits.steps sc s.host
    (ts, r, { s.set i sc with host := host })

def listing (written : V → String) (t : Token V) : String :=
  "(" ++ t.type ++ "," ++ written t.value ++ "," ++ Text.decimal t.line ++ "," ++
    Text.decimal t.position ++ ")\n"

def list (mk : Maker V) (limits : Limits) (note : Token V → σ → Except Fault σ) (i : Nat)
    (text : String) (s : Session V σ) : Except ScanError Unit × Session V σ :=
  match s.get? i with
  | none => (.ok (), s)
  | some sc =>
    let (r, sc, host) := visit mk limits note limits.steps (sc.input text.toList) s.host
    (r, { s.set i sc with host := host })

end Session

end LispKit.Scanner
