import LispKit.Proofs.Lisp.Nesting
import Mathlib.Algebra.BigOperators.Group.List.Basic
import Mathlib.Algebra.Ring.Int.Defs

/-! The operands of an operator: they are evaluated from the first one on, and what they come to is combined from the
last one on. -/

namespace LispKit.Lisp

open List

def Node.members : Node → List Node
  | .mk .operands _ _ [x, y] => x :: members y
  | n => [n]

def Node.inputs : Node → List Node
  | .mk (.binary _) _ _ [x, y] => x :: y.members
  | n => n.children

inductive Evaluates (memoize : Bool) : List Node → Store → List Value → Store → Prop
  | nil {s} : Evaluates memoize [] s [] s
  | cons {e es s v u vs t} : Settles memoize e s (.ok v) u → Evaluates memoize es u vs t →
      Evaluates memoize (e :: es) s (v :: vs) t

namespace Binary

def join (b : Binary) (x y : Value) : Except Fault Value :=
  if x.sameType y then b.combine x y else .error .typeMismatch

def gather (b : Binary) : List Value → Except Fault Value
  | [] => .ok .nothing
  | [v] => .ok v
  | v :: w :: vs => b.gather (w :: vs) >>= b.join v

lemma gather_cons (b : Binary) (v : Value) {vs : List Value} (h : vs ≠ []) :
    b.gather (v :: vs) = b.gather vs >>= b.join v := by
  obtain ⟨w, ws, rfl⟩ := exists_cons_of_ne_nil h
  rfl

lemma join_error {b : Binary} {x y : Value} {e : Fault} (h : b.join x y = .error e) :
    Running.isTypeFault e = true ∨ b = .divide ∧ e = .divisionByZero ∨ b = .modulo ∧ e = .moduloByZero := by
  unfold join at h
  split at h
  · exact combine_error h
  · cases h
    exact .inl rfl

lemma gather_error {b : Binary} {vs : List Value} {e : Fault} (h : b.gather vs = .error e) :
    Running.isTypeFault e = true ∨ b = .divide ∧ e = .divisionByZero ∨ b = .modulo ∧ e = .moduloByZero := by
  induction vs generalizing e with
  | nil => cases h
  | cons v vs ih =>
    by_cases hvs : vs = []
    · subst hvs
      cases h
    · rw [gather_cons b v hvs] at h
      cases hg : b.gather vs with
      | ok w =>
        rw [hg] at h
        exact join_error h
      | error f =>
        rw [hg] at h
        cases h
        exact ih hg

lemma gather_ne_tooDeep (b : Binary) (vs : List Value) : b.gather vs ≠ .error .tooDeep := by
  intro h
  obtain h | ⟨_, h⟩ | ⟨_, h⟩ := gather_error h <;> cases h

end Binary

section

variable {memoize : Bool} {b : Binary} {n x y : Node} {s t : Store} {vs : List Value} {es : List Node}

lemma Node.members_eq (h : n.kind ≠ .operands) : n.members = [n] := by
  unfold Node.members
  split
  · exact (h rfl).elim
  · rfl

lemma Node.members_ne_nil (n : Node) : n.members ≠ [] := by
  unfold Node.members
  split
  · exact cons_ne_nil _ _
  · exact cons_ne_nil _ _

lemma Tree.members (h : Tree .expressions y) : ∀ e ∈ y.members, Tree .expression e := by
  generalize hx : Symbol.expressions = x at h
  induction h with
  | ofExpression h _ =>
    rw [Node.members_eq h.kind_ne_operands]
    exact forall_mem_singleton.mpr h
  | operands h _ _ ih => exact forall_mem_cons.mpr ⟨h, ih rfl⟩
  | _ => cases hx

lemma Tree.eq_binary (h : Tree .expression n) (hk : n.kind = .binary b) : ∃ v id x y,
    n = .mk (.binary b) v id [x, y] ∧ Tree .expression x ∧ Tree .expressions y := by
  obtain ⟨v, id, x, y, rfl, hx, hy | ⟨_, hy⟩⟩ := Node.IsTree.eq_binary ⟨_, h⟩ hk
  · exact ⟨v, id, x, y, rfl, hx, .ofExpression hy⟩
  · exact ⟨v, id, x, y, rfl, hx, hy⟩

lemma Tree.inputs (h : Tree .expression n) (hk : n.kind = .binary b) : ∀ e ∈ n.inputs, Tree .expression e := by
  obtain ⟨v, id, x, y, rfl, hx, hy⟩ := h.eq_binary hk
  exact forall_mem_cons.mpr ⟨hx, hy.members⟩

lemma Evaluates.length (h : Evaluates memoize es s vs t) : vs.length = es.length := by
  induction h with
  | nil => rfl
  | cons _ _ ih => rw [length_cons, length_cons, ih]

lemma Evaluates.pushOperator (h : Evaluates memoize es s vs t) (hes : ∀ e ∈ es, Tree .expression e) (hs : s.Proper)
    (o : Operator) : Evaluates memoize es (s.pushOperator o) vs (t.pushOperator o) := by
  induction h with
  | nil => exact .nil
  | cons hv _ ih =>
    obtain ⟨he, hes⟩ := forall_mem_cons.mp hes
    have hu := (hv.extends (he.isInner (by simp [Symbol.IsInner])) hs).proper hs
    exact .cons (hv.pushOperator he hs o) (ih hes hu)

namespace Eval

variable {G : Meaning} {r : Except Fault Value} {u w : Value} {s' : Store} {os : List Operator}

lemma combineRest_runs (hy : n.children[1]? = some y) (hw : G y s (.ok w) t)
    (ht : t.operators.head? = some (.binary b)) : (combineRest n u s).Runs G (b.join u w) t := by
  obtain ⟨os, hos⟩ := head?_eq_some_iff.mp ht
  have hend : ((checkSameType u w >>= fun _ => operator >>= combined u w) t).Runs G (b.join u w) t := by
    simp only [checkSameType, operator, Binary.join, bind_apply]
    split
    · simp only [pure_apply, Course.andThen, bind_apply, get_apply, hos, combined]
      cases b.combine u w <;> exact .done _ _
    · exact .done _ _
  rw [combineRest, bind_apply, child_apply hy]
  exact .next hw hend

lemma operands_runs (hx : n.children[0]? = some x) (hu : G x s (.ok u) s') (hs' : s'.operators.head? = some (.binary b))
    (h : (combineRest n u s').Runs G r t) : (operands n s).Runs G r t := by
  obtain ⟨os, hos⟩ := head?_eq_some_iff.mp hs'
  rw [operands, bind_apply, child_apply hx]
  refine .next hu ?_
  simpa [operator, hos, Course.andThen] using h

end Eval

lemma settles_members {os : List Operator} (hy : Tree .expressions y) (hs : s.operators = .binary b :: os)
    (h : Evaluates memoize y.members s vs t) : Settles memoize y s (b.gather vs) t := by
  generalize hx : Symbol.expressions = x at hy
  induction hy generalizing s vs with
  | ofExpression hy _ =>
    rw [Node.members_eq hy.kind_ne_operands] at h
    cases h with
    | cons hv h =>
      cases h
      exact hv
  | @operands v id x y _ hy _ ih =>
    cases h with
    | @cons _ _ _ v u vs _ hv h =>
      have hu : u.operators = .binary b :: os := hv.operators.trans hs
      have hrest := ih hu h rfl
      refine settles_iff.mpr ⟨b.gather_ne_tooDeep _, Eval.operands_runs rfl hv (by rw [hu]; rfl) ?_⟩
      have hne : vs ≠ [] := by
        rw [← length_pos_iff, h.length, length_pos_iff]
        exact y.members_ne_nil
      rw [b.gather_cons v hne]
      cases hg : b.gather vs with
      | ok w =>
        rw [hg] at hrest
        refine Eval.combineRest_runs rfl hrest ?_
        rw [hrest.operators, hu]
        rfl
      | error e =>
        rw [hg] at hrest
        exact .fail hrest
  | _ => cases hx

def Store.concluded (t : Store) (b : Binary) : Except Fault Value → Store
  | .ok _ => t
  | .error _ => t.pushOperator (.binary b)

lemma Eval.binary_runs {G : Meaning} {u w : Value} {s' : Store} (hx : n.children[0]? = some x)
    (hu : G x (s.pushOperator (.binary b)) (.ok u) s') (hy : n.children[1]? = some y)
    (hw : G y s' (.ok w) (t.pushOperator (.binary b))) :
    (binary b n s).Runs G (b.join u w) (t.concluded b (b.join u w)) := by
  have hend : ((do
      checkSameType u w
      let r ← ofExcept (b.combine u w)
      popOperator
      pure r : Eval Value) (t.pushOperator (.binary b))).Runs G (b.join u w) (t.concluded b (b.join u w)) := by
    simp only [checkSameType, Binary.join, bind_apply]
    split
    · cases b.combine u w <;> exact .done _ _
    · exact .done _ _
  change ((child n 0 >>= fun x => visit x >>= _) (s.pushOperator (.binary b))).Runs G _ _
  rw [bind_apply, child_apply hx]
  refine .next hu ?_
  change ((child n 1 >>= fun y => visit y >>= _) s').Runs G _ _
  rw [bind_apply, child_apply hy]
  exact .next hw hend

lemma settles_operation (hn : Tree .expression n) (hk : n.kind = .binary b) (hs : s.Proper)
    (h : Evaluates memoize n.inputs s vs t) : Settles memoize n s (b.gather vs) (t.concluded b (b.gather vs)) := by
  have h := h.pushOperator (hn.inputs hk) hs (.binary b)
  obtain ⟨v, id, x, y, rfl, _, hy⟩ := hn.eq_binary hk
  cases h with
  | @cons _ _ _ v u vs _ hv h =>
    have hrest := settles_members hy hv.operators h
    refine settles_iff.mpr ⟨b.gather_ne_tooDeep _, ?_⟩
    have hne : vs ≠ [] := by
      rw [← length_pos_iff, h.length, length_pos_iff]
      exact y.members_ne_nil
    rw [b.gather_cons v hne]
    cases hg : b.gather vs with
    | ok w =>
      rw [hg] at hrest
      exact Eval.binary_runs rfl hv rfl hrest
    | error e =>
      rw [hg] at hrest
      exact .next hv (.fail hrest)

end

lemma Value.sameType_iff {x y : Value} : x.sameType y = true ↔ x.typeName = y.typeName := by
  cases x <;> cases y <;> simp [sameType, typeName]

namespace Binary

variable {b : Binary} {vs : List Value}

lemma gather_map {α : Type} {inj : α → Value} {f : List α → α} (hone : ∀ x, f [x] = x)
    (hjoin : ∀ x xs, b.join (inj x) (inj (f xs)) = .ok (inj (f (x :: xs)))) {as : List α} (has : as ≠ []) :
    b.gather (as.map inj) = .ok (inj (f as)) := by
  induction as with
  | nil => exact (has rfl).elim
  | cons a as ih =>
    by_cases htail : as = []
    · subst htail
      rw [hone]
      rfl
    · rw [map_cons, b.gather_cons _ (by simpa using htail), ih htail]
      exact hjoin a as

lemma gather_logical (hb : b = .and ∨ b = .or) (hvs : vs ≠ []) :
    (∃ r, b.gather vs = .ok r ∧ ∀ v ∈ vs, v.sameType r = true) ∨
      b.gather vs = .error .typeMismatch ∧ ∃ v ∈ vs, ∃ w ∈ vs, v.sameType w = false := by
  induction vs with
  | nil => exact (hvs rfl).elim
  | cons v vs ih =>
    by_cases htail : vs = []
    · subst htail
      exact .inl ⟨v, rfl, forall_mem_singleton.mpr (Value.sameType_iff.mpr rfl)⟩
    rw [b.gather_cons v htail]
    obtain ⟨r, hr, hall⟩ | ⟨hr, x, hx, y, hy, hxy⟩ := ih htail
    · rw [hr]
      by_cases hv : v.sameType r = true
      · obtain ⟨q, hq, hqr⟩ : ∃ q, b.join v r = .ok q ∧ (q = v ∨ q = r) := by
          rw [join, if_pos hv]
          obtain rfl | rfl := hb
          · exact ⟨_, rfl, by split <;> simp⟩
          · exact ⟨_, rfl, by split <;> simp⟩
        have htype : q.typeName = r.typeName := by
          obtain rfl | rfl := hqr
          · exact Value.sameType_iff.mp hv
          · rfl
        refine .inl ⟨q, hq, forall_mem_cons.mpr ⟨?_, fun w hw => ?_⟩⟩
        · rw [Value.sameType_iff, htype]
          exact Value.sameType_iff.mp hv
        · rw [Value.sameType_iff, htype]
          exact Value.sameType_iff.mp (hall w hw)
      · obtain ⟨w, hw⟩ := exists_mem_of_ne_nil vs htail
        refine .inr ⟨by simp [bind, Except.bind, join, hv], v, by simp, w, by simp [hw], ?_⟩
        rw [Bool.eq_false_iff, Ne, Value.sameType_iff, Value.sameType_iff.mp (hall w hw)]
        rwa [Value.sameType_iff] at hv
    · rw [hr]
      exact .inr ⟨rfl, x, by simp [hx], y, by simp [hy], hxy⟩

lemma gather_mixed (hb : b = .and ∨ b = .or) {v w : Value} (hv : v ∈ vs) (hw : w ∈ vs) (hvw : v.sameType w = false) :
    b.gather vs = .error .typeMismatch := by
  obtain ⟨r, _, hall⟩ | ⟨h, _⟩ := gather_logical hb (ne_nil_of_mem hv)
  · have htype := (Value.sameType_iff.mp (hall v hv)).trans (Value.sameType_iff.mp (hall w hw)).symm
    rw [Value.sameType_iff.mpr htype] at hvw
    cases hvw
  · exact h

lemma gather_equal (k m : Int) (ms : List Int) : equal.gather ((k :: m :: ms).map .int) =
    if ms = [] then .ok (.bool (k == m)) else .error .typeMismatch := by
  induction ms generalizing k m with
  | nil => rfl
  | cons l ms ih =>
    rw [map_cons, gather_cons _ _ (by simp), ih m l]
    split <;> rfl

end Binary

section

variable {memoize : Bool} {b : Binary} {n : Node} {s t : Store} {vs : List Value}

lemma Tree.two_le_inputs (hn : Tree .expression n) (hk : n.kind = .binary b) : 2 ≤ n.inputs.length := by
  obtain ⟨v, id, x, y, rfl, _, _⟩ := hn.eq_binary hk
  have := length_pos_iff.mpr y.members_ne_nil
  simp only [Node.inputs, length_cons]
  omega

lemma Settles.of_gather {v : Value} (hn : Tree .expression n) (hk : n.kind = .binary b) (hs : s.Proper)
    (h : Evaluates memoize n.inputs s vs t) (hv : b.gather vs = .ok v) : Settles memoize n s (.ok v) t := by
  have hn := settles_operation hn hk hs h
  rwa [hv] at hn

lemma Settles.of_gather_error {e : Fault} (hn : Tree .expression n) (hk : n.kind = .binary b) (hs : s.Proper)
    (h : Evaluates memoize n.inputs s vs t) (he : b.gather vs = .error e) :
    Settles memoize n s (.error e) (t.pushOperator (.binary b)) := by
  have hn := settles_operation hn hk hs h
  rwa [he] at hn

/-- Sums, products, conjunctions and disjunctions of any number of operands are those of the values that the operands
come to, whatever operators stand around them. -/
theorem operation_folds (hn : Tree .expression n) (hk : n.kind = .binary b) (hs : s.Proper)
    (h : Evaluates memoize n.inputs s vs t) :
    (∀ ms : List Int, vs = ms.map .int →
      (b = .plus → Settles memoize n s (.ok (.int ms.sum)) t) ∧
      (b = .times → Settles memoize n s (.ok (.int ms.prod)) t)) ∧
    (∀ bs : List Bool, vs = bs.map .bool →
      (b = .and → Settles memoize n s (.ok (.bool (bs.all id))) t) ∧
      (b = .or → Settles memoize n s (.ok (.bool (bs.any id))) t)) ∧
    (b = .and ∨ b = .or → (∃ v ∈ vs, ∃ w ∈ vs, v.sameType w = false) →
      Settles memoize n s (.error .typeMismatch) (t.pushOperator (.binary b))) ∧
    ∀ e ∈ n.inputs, ∀ (u : Store) (os : List Operator) (d : Nat), u.Proper →
      (evaluate memoize d e { u with operators := os }).1 = (evaluate memoize d e u).1 := by
  have hlength : 2 ≤ vs.length := h.length ▸ hn.two_le_inputs hk
  refine ⟨?_, ?_, ?_, ?_⟩
  · rintro ms rfl
    have hms : ms ≠ [] := by
      rintro rfl
      simp at hlength
    constructor
    · rintro rfl
      refine .of_gather hn hk hs h (Binary.gather_map (fun x => sum_singleton) (fun x xs => ?_) hms)
      rw [sum_cons]
      rfl
    · rintro rfl
      refine .of_gather hn hk hs h (Binary.gather_map (fun x => prod_singleton) (fun x xs => ?_) hms)
      rw [prod_cons]
      rfl
  · rintro bs rfl
    have hbs : bs ≠ [] := by
      rintro rfl
      simp at hlength
    constructor
    · rintro rfl
      refine .of_gather hn hk hs h (Binary.gather_map (f := (·.all id)) (fun x => Bool.and_true x) (fun x xs => ?_) hbs)
      cases x <;> rfl
    · rintro rfl
      refine .of_gather hn hk hs h (Binary.gather_map (f := (·.any id)) (fun x => Bool.or_false x) (fun x xs => ?_) hbs)
      cases x <;> rfl
  · rintro hb ⟨v, hv, w, hw, hvw⟩
    exact .of_gather_error hn hk hs h (Binary.gather_mixed hb hv hw hvw)
  · intro e he u os d hu
    exact evaluate_setOperators (hn.inputs hk e he) hu d os

def nestedSum : Node :=
  .branch (.binary .plus) [.number 1, .branch .operands
    [.branch (.binary .times) [.number 2, .branch .operands [.number 3, .number 4]], .number 5]]

theorem operation_folds_nested : Evaluates true nestedSum.inputs { operators := [.not] } [.int 1, .int 24, .int 5]
    { operators := [.not] } ∧ Settles true nestedSum { operators := [.not] } (.ok (.int 30)) { operators := [.not] } := by
  have htree : Tree .expression nestedSum :=
    .variadic (by decide) .number (.operands (.variadic (by decide) .number (.operands .number (.ofExpression .number)))
      (.ofExpression .number))
  have heval : Evaluates true nestedSum.inputs { operators := [.not] } [.int 1, .int 24, .int 5] { operators := [.not] } :=
    .cons ⟨by simp, 1, rfl⟩ (.cons ⟨by simp, 3, rfl⟩ (.cons ⟨by simp, 1, rfl⟩ .nil))
  exact ⟨heval, ((operation_folds htree rfl (Store.Proper.empty.setOperators [.not]) heval).1 [1, 24, 5] rfl).1 rfl⟩

/-- Equality holds of two integers or fails; more integers than two cannot be compared. -/
theorem equality_of_two {ms : List Int} (hn : Tree .expression n) (hk : n.kind = .binary .equal) (hs : s.Proper)
    (h : Evaluates memoize n.inputs s (ms.map .int) t) :
    (ms.length = 2 → Settles memoize n s (.ok (.bool (decide (∀ x ∈ ms, ∀ y ∈ ms, x = y)))) t) ∧
    (ms.length ≠ 2 → Settles memoize n s (.error .typeMismatch) (t.pushOperator (.binary .equal))) := by
  have hlength : 2 ≤ ms.length := by
    have hinputs := hn.two_le_inputs hk
    rwa [← h.length, length_map] at hinputs
  match ms, hlength with
  | k :: m :: ms, _ =>
    have hgather := Binary.gather_equal k m ms
    constructor
    · intro htwo
      obtain rfl : ms = [] := by simpa using htwo
      have hiff : (∀ x ∈ [k, m], ∀ y ∈ [k, m], x = y) ↔ k = m := by
        constructor
        · exact fun hall => hall k (by simp) m (by simp)
        · rintro rfl
          simp
      rw [decide_eq_decide.mpr hiff]
      exact .of_gather hn hk hs h hgather
    · intro hmore
      rw [if_neg (by simpa using hmore)] at hgather
      exact .of_gather_error hn hk hs h hgather

def twoOnes : Node :=
  .branch (.binary .equal) [.number 1, .number 1]

def threeOnes : Node :=
  .branch (.binary .equal) [.number 1, .branch .operands [.number 1, .number 1]]

theorem equality_of_two_ones : Settles true twoOnes {} (.ok (.bool true)) {} ∧
    Settles true threeOnes {} (.error .typeMismatch) { operators := [.binary .equal] } := by
  have htwo : Evaluates true twoOnes.inputs {} ([1, 1].map .int) {} :=
    .cons ⟨by simp, 1, rfl⟩ (.cons ⟨by simp, 1, rfl⟩ .nil)
  have hthree : Evaluates true threeOnes.inputs {} ([1, 1, 1].map .int) {} :=
    .cons ⟨by simp, 1, rfl⟩ (.cons ⟨by simp, 1, rfl⟩ (.cons ⟨by simp, 1, rfl⟩ .nil))
  exact ⟨(equality_of_two (.binary .number .number) rfl .empty htwo).1 rfl, (equality_of_two
    (.variadic (by decide) .number (.operands .number (.ofExpression .number))) rfl .empty hthree).2 (by decide)⟩

theorem three_ones_not_compared : Evaluates true threeOnes.inputs {} [.int 1, .int 1, .int 1] {} ∧
    ¬ ∃ t, Settles true threeOnes {} (.ok (.bool true)) t := by
  refine ⟨.cons ⟨by simp, 1, rfl⟩ (.cons ⟨by simp, 1, rfl⟩ (.cons ⟨by simp, 1, rfl⟩ .nil)), fun ⟨t, h⟩ => ?_⟩
  have hfails : Settles true threeOnes {} (.error .typeMismatch) { operators := [.binary .equal] } := ⟨by simp, 3, rfl⟩
  cases (h.unique hfails).1

end

end LispKit.Lisp
