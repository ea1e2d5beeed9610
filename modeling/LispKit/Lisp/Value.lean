import LispKit.Fault
import LispKit.Text.Decimal

/-! Values of programs: integers, truth values, texts and nothing. -/

namespace LispKit.Lisp

inductive Value where
  | nothing
  | int (n : Int)
  | bool (b : Bool)
  | text (s : String)
  deriving DecidableEq, Inhabited

namespace Value

def typeName : Value → String
  | nothing => "NoneType"
  | int _ => "int"
  | bool _ => "bool"
  | text _ => "str"

def sameType : Value → Value → Bool
  | nothing, nothing => true
  | int _, int _ => true
  | bool _, bool _ => true
  | text _, text _ => true
  | _, _ => false

def isTrue : Value → Bool
  | nothing => false
  | int n => n != 0
  | bool b => b
  | text s => !s.isEmpty

def number? : Value → Option Int
  | int n => some n
  | bool b => some (if b then 1 else 0)
  | _ => none

/-- Equality of values, where a truth value equals the integer that it counts as. -/
def same (a b : Value) : Bool :=
  match a.number?, b.number? with
  | some m, some n => m == n
  | none, none => a == b
  | _, _ => false

/-- The written form, unless it is an integer that is too long to be written. -/
def write : Value → Except Fault String
  | nothing => .ok "None"
  | int n => if Text.exceedsDigitLimit n then .error .longNumber else .ok (Text.decimal n)
  | bool b => .ok (if b then "True" else "False")
  | text s => .ok (Text.quoted s)

def display : Value → Except Fault String
  | text s => .ok s
  | v => v.write

def written (v : Value) : String :=
  match v.write with
  | .ok s => s
  | .error _ => "<huge>"

theorem same_refl (v : Value) : v.same v = true := by
  cases v <;> simp [same, number?]

theorem same_iff {a b : Value} : a.same b = true ↔ a.number? = b.number? ∧ (a.number? = none → a = b) := by
  unfold same
  cases ha : a.number? <;> cases hb : b.number? <;> simp

theorem same_symm {a b : Value} (h : a.same b = true) : b.same a = true := by
  rw [same_iff] at h ⊢
  exact ⟨h.1.symm, fun hb => (h.2 (h.1.trans hb)).symm⟩

theorem same_trans {a b c : Value} (h : a.same b = true) (h' : b.same c = true) : a.same c = true := by
  rw [same_iff] at h h' ⊢
  exact ⟨h.1.trans h'.1, fun ha => (h.2 ha).trans (h'.2 (h.1 ▸ ha))⟩

end Value

/-- A value as a key: equal values are one key. -/
structure Key where
  value : Value

instance : BEq Key := ⟨fun a b => a.value.same b.value⟩

instance : EquivBEq Key where
  rfl := Value.same_refl _
  symm := Value.same_symm
  trans := Value.same_trans

end LispKit.Lisp
