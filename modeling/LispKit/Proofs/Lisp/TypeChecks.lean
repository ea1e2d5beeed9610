import LispKit.Proofs.Lisp.Operands

/-! The types of operands: an operator only compares the types of neighbours, so that it takes some operands that are
neither integers nor truth values as they should be. -/

namespace LispKit.Lisp

open List

namespace Value

def IsInt (v : Value) : Prop :=
  ∃ m, v = .int m

def IsBool (v : Value) : Prop :=
  ∃ b, v = .bool b

def IsText (v : Value) : Prop :=
  ∃ w, v = .text w

def Numbers (v w : Value) : Prop :=
  v.IsInt ∧ w.IsInt ∨ v.IsBool ∧ w.IsBool

variable {u r v w : Value}

lemma isInt_iff (h : r.IsInt) : u.IsInt ↔ u.sameType r = true := by
  obtain ⟨m, rfl⟩ := h
  cases u <;> simp [IsInt, sameType]

lemma isBool_iff (h : r.IsBool) : u.IsBool ↔ u.sameType r = true := by
  obtain ⟨b, rfl⟩ := h
  cases u <;> simp [IsBool, sameType]

lemma isText_iff (h : r.IsText) : u.IsText ↔ u.sameType r = true := by
  obtain ⟨t, rfl⟩ := h
  cases u <;> simp [IsText, sameType]

lemma Numbers.not_text (h : v.Numbers w) : ¬ v.IsText := by
  rintro ⟨t, rfl⟩
  obtain ⟨⟨m, hm⟩, _⟩ | ⟨⟨b, hb⟩, _⟩ := h
  · cases hm
  · cases hb

end Value

/-- Whether an operator takes the last two of its values and, with what it makes of them, those before. -/
def Binary.Admits (b : Binary) (us : List Value) (v w : Value) : Prop :=
  match b with
  | plus => v.Numbers w ∧ (∀ u ∈ us, u.IsInt) ∨ (v.IsText ∧ w.IsText) ∧ ∀ u ∈ us, u.IsText
  | times | minus | divide | modulo => v.Numbers w ∧ ∀ u ∈ us, u.IsInt
  | greater | less => (v.Numbers w ∨ v.IsText ∧ w.IsText) ∧ us = []
  | equal => v.sameType w = true ∧ ∀ u ∈ us, u.IsBool
  | and | or => v.sameType w = true ∧ ∀ u ∈ us, u.sameType w = true

def TypeFailure (r : Except Fault Value) : Prop :=
  ∃ e, r = .error e ∧ Running.isTypeFault e = true

@[simp] lemma not_typeFailure_ok {v : Value} : ¬ TypeFailure (.ok v) := by
  rintro ⟨e, he, _⟩
  cases he

@[simp] lemma typeFailure_error {e : Fault} : TypeFailure (.error e) ↔ Running.isTypeFault e = true := by
  constructor
  · rintro ⟨f, hf, h⟩
    cases hf
    exact h
  · exact fun h => ⟨e, rfl, h⟩

namespace Binary

variable {b : Binary} {us vs : List Value} {v w r : Value}

def Takes (b : Binary) (v w : Value) : Prop :=
  match b with
  | plus | greater | less => v.Numbers w ∨ v.IsText ∧ w.IsText
  | times | minus | divide | modulo => v.Numbers w
  | equal | and | or => v.sameType w = true

lemma Takes.sameType (h : b.Takes v w) : v.sameType w = true := by
  cases b <;> cases v <;> cases w <;>
    simp_all [Takes, Value.sameType, Value.Numbers, Value.IsInt, Value.IsBool, Value.IsText]

lemma typeFailure_integer (b : Binary) (m n : Int) : ¬ TypeFailure (b.integer m n) := by
  unfold integer
  split
  all_goals first
    | exact not_typeFailure_ok
    | split <;> simp [Running.isTypeFault]

lemma takes_numbers (h : v.Numbers w) : b.Takes v w := by
  have hvw : v.sameType w = true := by
    obtain ⟨⟨m, rfl⟩, n, rfl⟩ | ⟨⟨x, rfl⟩, y, rfl⟩ := h <;> rfl
  cases b with
  | plus | greater | less => exact .inl h
  | times | minus | divide | modulo => exact h
  | equal | and | or => exact hvw

lemma typeFailure_numbers (h : v.Numbers w) : ¬ TypeFailure (b.combine v w) := by
  unfold combine
  split
  · rename_i hb
    obtain rfl | rfl : b = .and ∨ b = .or := by simpa using hb
    · exact not_typeFailure_ok
    · exact not_typeFailure_ok
  · obtain ⟨⟨m, rfl⟩, n, rfl⟩ | ⟨⟨x, rfl⟩, y, rfl⟩ := h
    · exact typeFailure_integer b m n
    · exact typeFailure_integer b _ _

lemma typeFailure_combine (hvw : v.sameType w = true) : TypeFailure (b.combine v w) ↔ ¬ b.Takes v w := by
  have hnumbers : v.Numbers w → (TypeFailure (b.combine v w) ↔ ¬ b.Takes v w) := fun h =>
    iff_of_false (typeFailure_numbers h) (not_not.mpr (takes_numbers h))
  cases v with
  | int m =>
    cases w with
    | int n => exact hnumbers (.inl ⟨⟨m, rfl⟩, n, rfl⟩)
    | _ => cases hvw
  | bool x =>
    cases w with
    | bool y => exact hnumbers (.inr ⟨⟨x, rfl⟩, y, rfl⟩)
    | _ => cases hvw
  | nothing =>
    cases w with
    | nothing =>
      cases b <;> simp [combine, Takes, general, Value.number?, Value.Numbers, Value.IsInt, Value.IsBool, Value.IsText,
        Running.isTypeFault, hvw]
    | _ => cases hvw
  | text =>
    cases w with
    | text =>
      cases b <;> simp [combine, Takes, general, Value.number?, Value.Numbers, Value.IsInt, Value.IsBool, Value.IsText,
        Running.isTypeFault, hvw]
    | _ => cases hvw

lemma typeFailure_join (b : Binary) (v w : Value) : TypeFailure (b.join v w) ↔ ¬ b.Takes v w := by
  unfold join
  split
  · exact typeFailure_combine ‹_›
  · rename_i h
    rw [typeFailure_error]
    exact iff_of_true rfl fun ht => h ht.sameType

lemma gather_fails (us : List Value) (h : TypeFailure (b.join v w)) : TypeFailure (b.gather (us ++ [v, w])) := by
  induction us with
  | nil => exact h
  | cons u us ih =>
    obtain ⟨e, he, hfault⟩ := ih
    rw [cons_append, b.gather_cons u (by simp), he]
    exact ⟨e, rfl, hfault⟩

section Before

variable {P R : Value → Prop} (hP : ∀ u r, R r → (P u ↔ u.sameType r = true))
  (hR : ∀ u r, R r → P u → ∃ q, b.join u r = .ok q ∧ R q) (us : List Value) (h : b.join v w = .ok r) (hr : R r)

include hP hR h hr

lemma gather_before : (∀ u ∈ us, P u) ∧ (∃ q, b.gather (us ++ [v, w]) = .ok q ∧ R q) ∨
    (¬ ∀ u ∈ us, P u) ∧ TypeFailure (b.gather (us ++ [v, w])) := by
  induction us with
  | nil => exact .inl ⟨forall_mem_nil _, r, h, hr⟩
  | cons u us ih =>
    rw [cons_append, b.gather_cons u (by simp), forall_mem_cons]
    obtain ⟨hus, q, hq, hrq⟩ | ⟨hus, e, he, hfault⟩ := ih
    · rw [hq]
      by_cases hu : P u
      · exact .inl ⟨⟨hu, hus⟩, hR u q hrq hu⟩
      · refine .inr ⟨fun h => hu h.1, .typeMismatch, ?_, rfl⟩
        exact if_neg fun h => hu ((hP u q hrq).mpr h)
    · rw [he]
      exact .inr ⟨fun h => hus h.2, e, rfl, hfault⟩

lemma gather_before_iff : TypeFailure (b.gather (us ++ [v, w])) ↔ ¬ ∀ u ∈ us, P u := by
  obtain ⟨hus, q, hq, _⟩ | ⟨hus, hfails⟩ := gather_before hP hR us h hr
  · rw [hq]
    exact iff_of_false not_typeFailure_ok (not_not.mpr hus)
  · exact iff_of_true hfails hus

end Before

lemma typeFailure_sum (hb : b = .plus ∨ b = .times) (us : List Value) (h : v.Numbers w) :
    TypeFailure (b.gather (us ++ [v, w])) ↔ ¬ ∀ u ∈ us, u.IsInt := by
  have hnumbers : ∀ {x y : Value}, x.Numbers y → ∃ q, b.join x y = .ok q ∧ q.IsInt := by
    rintro x y (⟨⟨m, rfl⟩, n, rfl⟩ | ⟨⟨p, rfl⟩, q, rfl⟩) <;> obtain rfl | rfl := hb <;> exact ⟨_, rfl, _, rfl⟩
  obtain ⟨r, hr, hint⟩ := hnumbers h
  exact gather_before_iff (fun _ _ => Value.isInt_iff) (fun u r hr hu => hnumbers (.inl ⟨hu, hr⟩)) us hr hint

lemma typeFailure_texts (us : List Value) (hv : v.IsText) (hw : w.IsText) :
    TypeFailure (plus.gather (us ++ [v, w])) ↔ ¬ ∀ u ∈ us, u.IsText := by
  have htexts : ∀ {x y : Value}, x.IsText → y.IsText → ∃ q, plus.join x y = .ok q ∧ q.IsText := by
    rintro x y ⟨p, rfl⟩ ⟨q, rfl⟩
    exact ⟨_, rfl, _, rfl⟩
  obtain ⟨r, hr, htext⟩ := htexts hv hw
  exact gather_before_iff (fun _ _ => Value.isText_iff) (fun u r hr hu => htexts hu hr) us hr htext

lemma typeFailure_equal (us : List Value) (h : v.sameType w = true) :
    TypeFailure (equal.gather (us ++ [v, w])) ↔ ¬ ∀ u ∈ us, u.IsBool := by
  have hequal : ∀ {x y : Value}, x.sameType y = true → ∃ q, equal.join x y = .ok q ∧ q.IsBool := by
    intro x y hxy
    rw [join, if_pos hxy]
    cases x <;> cases y <;> exact ⟨_, rfl, _, rfl⟩
  obtain ⟨r, hr, hbool⟩ := hequal h
  exact gather_before_iff (fun _ _ => Value.isBool_iff)
    (fun u r hr hu => hequal ((Value.isBool_iff hr).mp hu)) us hr hbool

lemma typeFailure_logical (hb : b = .and ∨ b = .or) (us : List Value) (h : v.sameType w = true) :
    TypeFailure (b.gather (us ++ [v, w])) ↔ ¬ ∀ u ∈ us, u.sameType w = true := by
  have hlogical : ∀ {x y : Value}, x.sameType y = true → ∃ q, b.join x y = .ok q ∧ q.typeName = y.typeName := by
    intro x y hxy
    rw [join, if_pos hxy]
    obtain rfl | rfl := hb
    · refine ⟨_, rfl, ?_⟩
      split
      · rfl
      · exact Value.sameType_iff.mp hxy
    · refine ⟨_, rfl, ?_⟩
      split
      · exact Value.sameType_iff.mp hxy
      · rfl
  obtain ⟨r, hr, htype⟩ := hlogical h
  refine gather_before_iff (R := fun r => r.typeName = w.typeName) (fun u r hr => ?_) (fun u r hr hu => ?_) us hr htype
  · rw [Value.sameType_iff, Value.sameType_iff, hr]
  · obtain ⟨q, hq, htype⟩ := hlogical (Value.sameType_iff.mpr ((Value.sameType_iff.mp hu).trans hr.symm))
    exact ⟨q, hq, htype.trans hr⟩

lemma Admits.takes (h : b.Admits us v w) : b.Takes v w := by
  cases b with
  | plus => exact h.imp And.left And.left
  | times | minus | divide | modulo | greater | less | equal | and | or => exact h.1

lemma admits_nil : b.Admits [] v w ↔ b.Takes v w := by
  cases b <;> simp [Admits, Takes]

lemma typeFailure_gather (hb : b.IsVariadic ∨ us = []) : TypeFailure (b.gather (us ++ [v, w])) ↔ ¬ b.Admits us v w := by
  by_cases htakes : b.Takes v w
  · obtain hb | rfl := hb
    · cases b with
      | plus =>
        obtain hn | ⟨hv, hw⟩ := htakes
        · rw [typeFailure_sum (.inl rfl) us hn, not_iff_not]
          exact ⟨fun h => .inl ⟨hn, h⟩, fun h => h.elim And.right fun h => (hn.not_text h.1.1).elim⟩
        · rw [typeFailure_texts us hv hw, not_iff_not]
          exact ⟨fun h => .inr ⟨⟨hv, hw⟩, h⟩, fun h => h.elim (fun h => (h.1.not_text hv).elim) And.right⟩
      | times =>
        rw [typeFailure_sum (.inr rfl) us htakes, not_iff_not]
        exact (and_iff_right htakes).symm
      | equal =>
        rw [typeFailure_equal us htakes, not_iff_not]
        exact (and_iff_right htakes).symm
      | and =>
        rw [typeFailure_logical (.inl rfl) us htakes, not_iff_not]
        exact (and_iff_right htakes).symm
      | or =>
        rw [typeFailure_logical (.inr rfl) us htakes, not_iff_not]
        exact (and_iff_right htakes).symm
      | _ => exact absurd hb (by decide)
    · rw [admits_nil]
      exact typeFailure_join b v w
  · exact iff_of_true (gather_fails us ((typeFailure_join b v w).mpr htakes)) fun h => htakes h.takes

end Binary

section

variable {memoize : Bool} {n : Node} {s t : Store}

lemma Tree.inputs_length {b : Binary} (hn : Tree .expression n) (hk : n.kind = .binary b) :
    b.IsVariadic ∨ n.inputs.length = 2 := by
  obtain ⟨v, id, x, y, rfl, _, hy | ⟨hb, _⟩⟩ := Node.IsTree.eq_binary ⟨_, hn⟩ hk
  · rw [Node.inputs, Node.members_eq hy.kind_ne_operands]
    exact .inr rfl
  · exact .inl hb

lemma exists_last_two {vs : List Value} (h : 2 ≤ vs.length) : ∃ us v w, vs = us ++ [v, w] := by
  obtain rfl | ⟨ws, w, rfl⟩ := vs.eq_nil_or_concat'
  · simp at h
  obtain rfl | ⟨us, v, rfl⟩ := ws.eq_nil_or_concat'
  · simp at h
  · exact ⟨us, v, w, by simp⟩

lemma Tree.eq_negation (hn : Tree .expression n) (hk : n.kind = .negation) : ∃ v id x,
    n = .mk .negation v id [x] ∧ Tree .expression x := by
  cases hn with
  | negation hx => exact ⟨_, _, _, rfl, hx⟩
  | ofReference h | ofFunction h =>
    cases h
    cases hk
  | _ => cases hk

lemma settles_negation {v : Value} (hn : Tree .expression n) (hk : n.kind = .negation) (hs : s.Proper)
    (h : Evaluates memoize n.inputs s [v] t) : ∃ r u, Settles memoize n s r u ∧ (TypeFailure r ↔ ¬ v.IsBool) := by
  obtain ⟨_, id, x, rfl, hx⟩ := hn.eq_negation hk
  cases h.pushOperator (forall_mem_singleton.mpr hx) hs .not with
  | cons hv h =>
    cases h
    cases v with
    | bool b =>
      exact ⟨_, t, .of_runs (.next hv (.done _ _)), iff_of_false not_typeFailure_ok (not_not.mpr ⟨b, rfl⟩)⟩
    | _ =>
      refine ⟨_, _, settles_iff.mpr ⟨?_, .next hv (.done (.error .typeMismatch) _)⟩, ?_⟩
      · simp
      · simp [Value.IsBool, Running.isTypeFault]

/-- An operator raises a type fault exactly if it does not admit the values of its operands; a negation does so
exactly if its operand is no truth value. -/
theorem type_fault_iff (hn : Tree .expression n) (hs : s.Proper) :
    (∀ b vs t, n.kind = .binary b → Evaluates memoize n.inputs s vs t → ∃ us v w r u, vs = us ++ [v, w] ∧
      Settles memoize n s r u ∧ (TypeFailure r ↔ ¬ b.Admits us v w)) ∧
    (∀ v t, n.kind = .negation → Evaluates memoize n.inputs s [v] t → ∃ r u, Settles memoize n s r u ∧
      (TypeFailure r ↔ ¬ v.IsBool)) := by
  refine ⟨fun b vs t hk h => ?_, fun v t hk h => settles_negation hn hk hs h⟩
  have hlength := h.length
  obtain ⟨us, v, w, rfl⟩ := exists_last_two (hlength ▸ hn.two_le_inputs hk)
  refine ⟨us, v, w, _, _, rfl, settles_operation hn hk hs h, Binary.typeFailure_gather ?_⟩
  refine (hn.inputs_length hk).imp_right fun htwo => ?_
  rw [htwo] at hlength
  simpa using hlength

def truths (y : Node) : Node :=
  .branch (.binary .plus) [.mk .bool (.bool true) 0 [], y]

theorem type_fault_of_three_truths : ∃ r u,
    Settles true (truths (.branch .operands [.mk .bool (.bool true) 0 [], .mk .bool (.bool true) 0 []])) {} r u ∧
      TypeFailure r := by
  have htree : Tree .expression (truths (.branch .operands [.mk .bool (.bool true) 0 [], .mk .bool (.bool true) 0 []])) :=
    .variadic (by decide) .bool (.operands .bool (.ofExpression .bool))
  obtain ⟨us, v, w, r, u, hvs, hr, hiff⟩ := (type_fault_iff htree .empty).1 .plus [.bool true, .bool true, .bool true] {}
    rfl (.cons ⟨by simp, 1, rfl⟩ (.cons ⟨by simp, 1, rfl⟩ (.cons ⟨by simp, 1, rfl⟩ .nil)))
  refine ⟨r, u, hr, hiff.mpr fun hadmits => ?_⟩
  obtain ⟨x, rfl⟩ : ∃ x, us = [x] := by
    rw [← length_eq_one_iff]
    simpa using (congrArg List.length hvs).symm
  cases hvs
  simp [Binary.Admits, Value.Numbers, Value.IsInt, Value.IsBool, Value.IsText] at hadmits

theorem two_truths_added : Settles true (truths (.mk .bool (.bool true) 0 [])) {} (.ok (.int 2)) {} ∧
    ¬ ∃ r u, Settles true (truths (.mk .bool (.bool true) 0 [])) {} r u ∧ TypeFailure r := by
  have hsum : Settles true (truths (.mk .bool (.bool true) 0 [])) {} (.ok (.int 2)) {} := ⟨by simp, 2, rfl⟩
  refine ⟨hsum, fun ⟨r, u, hr, hfails⟩ => ?_⟩
  rw [(hr.unique hsum).1] at hfails
  exact not_typeFailure_ok hfails

end

end LispKit.Lisp
