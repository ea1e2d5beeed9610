import LispKit.Proofs.Lisp.Call

/-! Rules of evaluation, by the kinds of nodes. -/

namespace LispKit.Lisp

open Eval Course

def Node.Has (n : Node) (k : Kind) (cs : List Node) : Prop :=
  n.kind = k ∧ n.children = cs

lemma Node.Has.eq_mk {n : Node} {k : Kind} {cs : List Node} (h : n.Has k cs) : ∃ v id, n = .mk k v id cs := by
  obtain ⟨k', v, id, cs'⟩ := n
  obtain ⟨rfl, rfl⟩ := h
  exact ⟨v, id, rfl⟩

def Store.addArgument (s : Store) (i : Nat) (v : Value) : Store :=
  s.modifyFrame i fun f => { f with arguments := f.arguments ++ [v] }

def Store.addParameters (s : Store) (i : Nat) (names : List Value) : Store :=
  s.modifyFrame i fun f => { f with parameters := f.parameters ++ names }

inductive Declares : List Value → Node → Prop
  | nil {n} : n.Has .null [] → Declares [] n
  | cons {n x c rest names} : n.Has .parameterList [x, rest] → x.Has .reference [c] → Declares names rest →
      Declares (c.value :: names) n

inductive Declared (names : List Value) (body : Node) : Node → Prop
  | mk {n ps l b} : n.Has .function [ps, b] → ps.Has .parameters [l] → Declares names l →
      b.Has .body [body] → Declared names body n

namespace Eval

variable {G : Meaning} {n rest first : Node} {s t : Store} {v x : Value} {u : Unit} {b : Binary}

lemma runs_visitChild {k : Nat} : ((child n k >>= visit) s).Runs G (.ok v) t ↔
    ∃ c, n.children[k]? = some c ∧ G c s (.ok v) t := by
  simp only [runs_bind_ok, runs_child, runs_visit_ok]
  constructor
  · rintro ⟨c, _, ⟨hc, rfl⟩, h⟩
    exact ⟨c, hc, h⟩
  · rintro ⟨c, hc, h⟩
    exact ⟨c, s, ⟨hc, rfl⟩, h⟩

lemma runs_checkSameType {y : Value} : (checkSameType x y s).Runs G (.ok u) t ↔ x.sameType y = true ∧ t = s := by
  unfold checkSameType
  split <;> simp_all [fail]

lemma runs_checkBool {b : Bool} : (checkBool x s).Runs G (.ok b) t ↔ x = .bool b ∧ t = s := by
  cases x <;> simp [checkBool, fail, eq_comm]

lemma runs_ofExcept {α : Type} {r : Except Fault α} {a : α} : (ofExcept r s).Runs G (.ok a) t ↔ r = .ok a ∧ t = s := by
  cases r <;> simp [ofExcept, fail, eq_comm]

lemma runs_operator {o : Operator} : (operator s).Runs G (.ok o) t ↔ s.operators.head? = some o ∧ t = s := by
  cases hs : s.operators <;> simp [operator, hs, fail, Course.andThen, eq_comm]

lemma runs_popOperator : (popOperator s).Runs G (.ok u) t ↔
    ∃ o os, s.operators = o :: os ∧ t = { s with operators := os } := by
  cases hs : s.operators <;> simp [popOperator, hs, fail, Course.andThen, and_assoc]

lemma runs_binary : (binary b n s).Runs G (.ok v) t ↔
    ∃ x u s' y w s'' o os, n.children[0]? = some x ∧ G x (s.pushOperator (.binary b)) (.ok u) s' ∧
      n.children[1]? = some y ∧ G y s' (.ok w) s'' ∧ u.sameType w = true ∧ b.combine u w = .ok v ∧
        s''.operators = o :: os ∧ t = { s'' with operators := os } := by
  simp only [binary, runs_bind_ok, runs_child, runs_visit_ok, runs_checkSameType, runs_ofExcept,
    runs_popOperator, modify_apply, pure_apply, runs_done]
  constructor
  · rintro ⟨_, _, ⟨_, rfl⟩, x, _, ⟨hx, rfl⟩, u, s', hu, y, _, ⟨hy, rfl⟩, w, s'', hw, _, _, ⟨ht, rfl⟩, _, _,
      ⟨hv, rfl⟩, _, _, ⟨o, os, hos, rfl⟩, h, rfl⟩
    cases h
    exact ⟨x, u, _, y, w, _, o, os, hx, hu, hy, hw, ht, hv, hos, rfl⟩
  · rintro ⟨x, u, s', y, w, s'', o, os, hx, hu, hy, hw, ht, hv, hos, rfl⟩
    exact ⟨(), _, ⟨trivial, rfl⟩, x, _, ⟨hx, rfl⟩, u, s', hu, y, _, ⟨hy, rfl⟩, w, s'', hw, (), _, ⟨ht, rfl⟩,
      v, _, ⟨hv, rfl⟩, (), _, ⟨o, os, hos, rfl⟩, rfl, rfl⟩

lemma runs_negation : (negation n s).Runs G (.ok v) t ↔
    ∃ x b s' o os, n.children[0]? = some x ∧ G x (s.pushOperator .not) (.ok (.bool b)) s' ∧
      v = .bool !b ∧ s'.operators = o :: os ∧ t = { s' with operators := os } := by
  simp only [negation, runs_bind_ok, runs_child, runs_visit_ok, runs_checkBool, runs_popOperator,
    modify_apply, pure_apply, runs_done, Except.ok.injEq]
  constructor
  · rintro ⟨_, _, ⟨_, rfl⟩, x, _, ⟨hx, rfl⟩, _, s', hu, b, _, ⟨rfl, rfl⟩, _, _, ⟨o, os, hos, rfl⟩, h, rfl⟩
    exact ⟨x, b, _, o, os, hx, hu, h, hos, rfl⟩
  · rintro ⟨x, b, s', o, os, hx, hu, h, hos, rfl⟩
    exact ⟨(), _, ⟨trivial, rfl⟩, x, _, ⟨hx, rfl⟩, _, s', hu, b, _, ⟨rfl, rfl⟩, (), _, ⟨o, os, hos, rfl⟩, h, rfl⟩

lemma runs_operands_of {x y : Node} {u w : Value} {s' : Store} (hx : n.children[0]? = some x) (hu : G x s (.ok u) s')
    (hs' : s'.operators.head? = some (.binary b)) (hy : n.children[1]? = some y) (hw : G y s' (.ok w) t)
    (ht : t.operators.head? = some (.binary b)) (htype : u.sameType w = true)
    (hv : b.combine u w = .ok v) : (operands n s).Runs G (.ok v) t := by
  simp only [operands, combineRest, runs_bind_ok, runs_child, runs_visit_ok, runs_operator]
  refine ⟨x, s, ⟨hx, rfl⟩, u, s', hu, _, s', ⟨hs', rfl⟩, ?_⟩
  simp only [runs_bind_ok, runs_child, runs_visit_ok, runs_operator, runs_checkSameType]
  exact ⟨y, s', ⟨hy, rfl⟩, w, t, hw, (), t, ⟨htype, rfl⟩, _, t, ⟨ht, rfl⟩, runs_ofExcept.mpr ⟨hv, rfl⟩⟩

lemma runs_conditional : (conditional n s).Runs G (.ok v) t ↔ ∃ x u s' y, n.children[0]? = some x ∧ G x s (.ok u) s' ∧
      n.children[if u.isTrue then 1 else 2]? = some y ∧ G y s' (.ok v) t := by
  simp only [conditional, runs_bind_ok, runs_child, runs_visit_ok]
  constructor
  · rintro ⟨x, _, ⟨hx, rfl⟩, u, s', hu, h⟩
    cases hb : u.isTrue <;> simp only [hb, Bool.false_eq_true, if_false, if_true] at h <;>
    · obtain ⟨y, hy, hv⟩ := runs_visitChild.mp h
      exact ⟨x, u, s', y, hx, hu, by simpa [hb] using hy, hv⟩
  · rintro ⟨x, u, s', y, hx, hu, hy, hv⟩
    refine ⟨x, s, ⟨hx, rfl⟩, u, s', hu, ?_⟩
    cases hb : u.isTrue <;> simp only [hb, Bool.false_eq_true, if_false, if_true] at hy ⊢ <;>
    exact runs_visitChild.mpr ⟨y, hy, hv⟩

lemma runs_test : (test n s).Runs G (.ok v) t ↔
    ∃ x b, n.children[0]? = some x ∧ G x s (.ok (.bool b)) t ∧ v = .bool b := by
  simp only [test, runs_bind_ok, runs_child, runs_visit_ok, runs_checkBool, pure_apply, runs_done,
    Except.ok.injEq]
  constructor
  · rintro ⟨x, _, ⟨hx, rfl⟩, _, _, hu, b, _, ⟨rfl, rfl⟩, h, rfl⟩
    exact ⟨x, b, hx, hu, h⟩
  · rintro ⟨x, b, hx, hu, h⟩
    exact ⟨x, s, ⟨hx, rfl⟩, _, _, hu, b, _, ⟨rfl, rfl⟩, h, rfl⟩

lemma runs_currentCall {i : Nat} : (currentCall s).Runs G (.ok i) t ↔ s.calls.head? = some i ∧ t = s := by
  cases hs : s.calls <;> simp [currentCall, hs, fail, Course.andThen, eq_comm]

lemma runs_visitRest {kind : Kind} : (visitRest kind rest s).Runs G (.ok u) t ↔
    if rest.kind = kind then ∃ v, G rest s (.ok v) t else t = s := by
  unfold visitRest
  split
  · simp only [runs_bind_ok, runs_visit_ok, pure_apply, runs_done]
    constructor
    · rintro ⟨v, _, hv, _, rfl⟩
      exact ⟨v, hv⟩
    · rintro ⟨v, hv⟩
      exact ⟨v, t, hv, trivial, rfl⟩
  · simp

variable (hfirst : n.children[0]? = some first) (hrest : n.children[1]? = some rest)

include hfirst hrest

lemma runs_listed (add : Node → Eval Unit) (kind : Kind) :
    ((do add (← child n 0); visitRest kind (← child n 1); pure .nothing : Eval Value) s).Runs G (.ok v) t ↔ v = .nothing ∧
      ∃ u, (add first s).Runs G (.ok ()) u ∧ if rest.kind = kind then ∃ v, G rest u (.ok v) t else t = u := by
  simp only [runs_bind_ok, runs_child, runs_visitRest, pure_apply, runs_done, Except.ok.injEq]
  constructor
  · rintro ⟨_, _, ⟨hf, rfl⟩, _, u, ha, _, _, ⟨hr, rfl⟩, _, _, hv, rfl, rfl⟩
    cases hfirst.symm.trans hf
    cases hrest.symm.trans hr
    exact ⟨rfl, _, ha, hv⟩
  · rintro ⟨rfl, u, ha, hv⟩
    exact ⟨first, s, ⟨hfirst, rfl⟩, (), u, ha, rest, u, ⟨hrest, rfl⟩, (), t, hv, rfl, rfl⟩

lemma runs_arguments (hk : first.kind = .argument) :
    (arguments n s).Runs G (.ok v) t ↔ v = .nothing ∧ ∃ i e w u, s.calls.head? = some i ∧
      first.children[0]? = some e ∧ G e s (.ok w) u ∧
        if rest.kind = .arguments then ∃ v, G rest (u.addArgument i w) (.ok v) t else t = u.addArgument i w := by
  rw [arguments, runs_listed hfirst hrest, addArgument, if_pos hk]
  simp only [runs_bind_ok, runs_child, runs_currentCall, runs_visit_ok, modify_apply, runs_done]
  constructor
  · rintro ⟨rfl, _, ⟨i, _, ⟨hi, rfl⟩, e, _, ⟨he, rfl⟩, w, u, hw, _, rfl⟩, h⟩
    exact ⟨rfl, i, e, w, u, hi, he, hw, h⟩
  · rintro ⟨rfl, i, e, w, u, hi, he, hw, h⟩
    exact ⟨rfl, _, ⟨i, s, ⟨hi, rfl⟩, e, s, ⟨he, rfl⟩, w, u, hw, trivial, rfl⟩, h⟩

lemma runs_parameterList (hk : first.kind = .reference) :
    (parameterList n s).Runs G (.ok v) t ↔ v = .nothing ∧ ∃ i c, s.calls.head? = some i ∧ first.children[0]? = some c ∧
        if rest.kind = .parameterList then ∃ v, G rest (s.addParameters i [c.value]) (.ok v) t
        else t = s.addParameters i [c.value] := by
  rw [parameterList, runs_listed hfirst hrest, addParameter, if_pos hk]
  simp only [runs_bind_ok, runs_nameOf, runs_currentCall, modify_apply, runs_done]
  constructor
  · rintro ⟨rfl, _, ⟨i, _, ⟨hi, rfl⟩, _, _, ⟨⟨c, hc, rfl⟩, rfl⟩, _, rfl⟩, h⟩
    exact ⟨rfl, i, c, hi, hc, h⟩
  · rintro ⟨rfl, i, c, hi, hc, h⟩
    exact ⟨rfl, _, ⟨i, s, ⟨hi, rfl⟩, _, s, ⟨⟨c, hc, rfl⟩, rfl⟩, trivial, rfl⟩, h⟩

omit hfirst hrest in
lemma runs_reference : (reference n s).Runs G (.ok v) t ↔
    ∃ c, n.children[0]? = some c ∧ (lookupIn c.value (s.scopes.head?.getD .global) s).Runs G (.ok v) t := by
  simp only [reference, runs_bind_ok, get_apply, runs_done, runs_nameOf]
  constructor
  · rintro ⟨_, _, ⟨h, rfl⟩, _, _, ⟨⟨c, hc, rfl⟩, rfl⟩, hr⟩
    cases h
    exact ⟨c, hc, hr⟩
  · rintro ⟨c, hc, hr⟩
    exact ⟨s, s, ⟨rfl, rfl⟩, _, s, ⟨⟨c, hc, rfl⟩, rfl⟩, hr⟩

end Eval

section

variable {memoize : Bool} {names : List Value} {body n c x y : Node} {s t : Store} {v : Value} {i : Nat}

lemma Settles.null (h : n.kind = .null) : Settles memoize n s (.ok .nothing) s :=
  .of_runs (by rw [Eval.step, h]; exact .done _ _)

lemma Settles.literal (h : n.kind = .number ∨ n.kind = .bool) : Settles memoize n s (.ok n.value) s := by
  refine .of_runs ?_
  obtain h | h := h <;>
  · rw [Eval.step, h]
    exact .done _ _

lemma Settles.visitChild (h : n.kind = .consequence ∨ n.kind = .alternative ∨ n.kind = .body)
    (hc : n.children[0]? = some c) (hv : Settles memoize c s (.ok v) t) : Settles memoize n s (.ok v) t := by
  refine .of_runs ?_
  obtain h | h | h := h <;>
  · rw [Eval.step, h]
    exact runs_visitChild.mpr ⟨c, hc, hv⟩

lemma Settles.nothing (h : n.kind = .function ∨ n.kind = .parameters) (hc : n.children[0]? = some c)
    (hv : Settles memoize c s (.ok v) t) : Settles memoize n s (.ok .nothing) t := by
  refine .of_runs ?_
  obtain h | h := h <;>
  · rw [Eval.step, h]
    exact runs_bind_ok.mpr ⟨c, s, runs_child.mpr ⟨hc, rfl⟩,
      runs_bind_ok.mpr ⟨v, t, runs_visit_ok.mpr hv, .done _ _⟩⟩

lemma Settles.statements {s' : Store} {r : Except Fault Value} (h : n.Has .statements [x, y])
    (hx : Settles memoize x s (.ok v) s') (hy : Settles memoize y s' r t) :
    Settles memoize n s (r.map fun _ => .nothing) t := by
  obtain ⟨_, _, rfl⟩ := h.eq_mk
  cases r with
  | ok w => exact .of_runs (.next hx (.next hy (.done _ _)))
  | error e => exact settles_iff.mpr ⟨hy.1, .next hx (.fail hy)⟩

lemma Settles.statements_fail {e : Fault} (h : n.Has .statements [x, y])
    (hx : Settles memoize x s (.error e) t) : Settles memoize n s (.error e) t := by
  obtain ⟨_, _, rfl⟩ := h.eq_mk
  exact settles_iff.mpr ⟨hx.1, .fail hx⟩

lemma Settles.printNumber {m : Int} (h : n.Has .printNumber [x]) (hx : Settles memoize x s (.ok (.int m)) t)
    (hm : Text.exceedsDigitLimit m = false) : Settles memoize n s (.ok .nothing) (t.print (Text.decimal m)) := by
  obtain ⟨_, _, rfl⟩ := h.eq_mk
  refine .of_runs (.next hx ?_)
  have hw : Value.write (.int m) = .ok (Text.decimal m) := by simp [Value.write, hm]
  change ((Eval.ofExcept (Value.write (.int m)) >>= _) t).Runs _ _ _
  rw [hw]
  exact .done _ _

lemma Settles.printNumber_fail {m : Int} (h : n.Has .printNumber [x]) (hx : Settles memoize x s (.ok (.int m)) t)
    (hm : Text.exceedsDigitLimit m = true) : Settles memoize n s (.error .longNumber) t := by
  obtain ⟨_, _, rfl⟩ := h.eq_mk
  refine settles_iff.mpr ⟨by simp, .next hx ?_⟩
  have hw : Value.write (.int m) = .error .longNumber := by simp [Value.write, hm]
  change ((Eval.ofExcept (Value.write (.int m)) >>= _) t).Runs _ _ _
  rw [hw]
  exact .done _ _

lemma Settles.defineFunction (h : n.Has .definition [x, body]) (hx : x.Has .functionName [c]) :
    Settles memoize n s (.ok .nothing) { s with
      frames := s.frames.push { name := c.value, function := some body }
      functions := s.functions.insert ⟨c.value⟩ s.frames.size } := by
  obtain ⟨_, _, rfl⟩ := h.eq_mk
  obtain ⟨_, _, rfl⟩ := hx.eq_mk
  exact .of_runs (.done _ _)

lemma Declares.kind_eq_iff (h : Declares names n) : n.kind = .parameterList ↔ names ≠ [] := by
  cases h with
  | nil hn => simp [hn.1]
  | cons hn _ _ => simp [hn.1]

lemma Declares.settles (h : Declares names n) (hi : s.calls.head? = some i) :
    Settles memoize n s (.ok .nothing) (s.addParameters i names) := by
  induction h generalizing s with
  | nil hn =>
    have hs : s.addParameters i [] = s := by simp [Store.addParameters, Store.modifyFrame_self]
    rw [hs]
    exact .null hn.1
  | @cons n x c rest names hn hx hrest ih =>
    refine .of_runs ?_
    rw [Eval.step, hn.1]
    refine (runs_parameterList (by rw [hn.2]; rfl) (by rw [hn.2]; rfl) hx.1).mpr
      ⟨rfl, i, c, hi, by rw [hx.2]; rfl, ?_⟩
    have hs : (s.addParameters i [c.value]).addParameters i names = s.addParameters i (c.value :: names) := by
      simp [Store.addParameters, Store.modifyFrame_modifyFrame]
    split
    · exact ⟨.nothing, hs ▸ ih hi⟩
    · rename_i hk
      have hnil : names = [] := by simpa [hrest.kind_eq_iff] using hk
      rw [hnil]

lemma Declared.settles (h : Declared names body n) (hi : s.calls.head? = some i) :
    Settles memoize n s (.ok .nothing) (s.addParameters i names) := by
  obtain ⟨hn, hps, hl, _⟩ := h
  exact .nothing (.inl hn.1) (by rw [hn.2]; rfl)
    (.nothing (.inr hps.1) (by rw [hps.2]; rfl) (hl.settles hi))

end

end LispKit.Lisp
