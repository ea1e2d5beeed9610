import LispKit.Proofs.Lisp.Safety

/-! Nested operators: an evaluation looks at the operators that have been pushed for it and never below them. -/

namespace LispKit.Lisp

structure Fed (c : Node × Store) : Prop where
  tree : c.1.IsTree
  proper : c.2.Proper
  operators : c.1.kind = .operands → c.2.operators ≠ []

section

variable {memoize : Bool} {n : Node} {s t : Store} {r : Except Fault Value} {os : List Operator} {v : Value}

lemma Tree.fed (hn : Tree .expression n) (hs : s.Proper) : Fed (n, s) :=
  ⟨⟨_, hn⟩, hs, fun hk => (hn.kind_ne_operands hk).elim⟩

lemma Enters.fed {c c' : Node × Store} (h : Enters memoize c c') (hc : Fed c) : Fed c' := by
  obtain ⟨hn, hgrown⟩ := stable_grown.enters h hc.tree hc.proper
  refine ⟨hn, hgrown.2 hc.proper, fun hk => ?_⟩
  obtain ⟨_, ⟨b, _, _, hoperators⟩ | ⟨hkind, hoperators⟩⟩ := h.operands hc.tree hc.proper hk
  · rw [hoperators]
    exact List.cons_ne_nil _ _
  · rw [hoperators]
    exact hc.operators hkind

lemma evaluate_operators {d : Nat} (h : evaluate memoize d n s = (.ok v, t)) : t.operators = s.operators :=
  (show Settles memoize n s (.ok v) t from ⟨by simp, d, h⟩).operators

lemma evaluate_above (memoize : Bool) (d : Nat) (os : List Operator) (hc : Fed (n, s)) :
    evaluate memoize d n (s.above os) = ((evaluate memoize d n s).1, (evaluate memoize d n s).2.above os) := by
  have hhead : ∀ {n : Node} {s t : Store}, Fed (n, s) → n.kind = .operands → (Likeness.above os).Like s t →
      s.operators.head? = t.operators.head? := by
    intro n s t hc hk hs
    obtain ⟨o, l, hl⟩ := List.exists_cons_of_ne_nil (hc.operators hk)
    rw [hs, Store.above, hl]
    rfl
  obtain ⟨_, h, rfl, _⟩ :=
    (Likeness.above os).evaluate (Likeness.remembers_above os) memoize Enters.fed hhead d hc rfl rfl
  exact h

lemma Store.Proper.setOperators (hs : s.Proper) (os : List Operator) : ({ s with operators := os } : Store).Proper :=
  ⟨hs.function, hs.place⟩

lemma evaluate_setOperators (hn : Tree .expression n) (hs : s.Proper) (d : Nat) (os : List Operator) :
    (evaluate memoize d n { s with operators := os }).1 = (evaluate memoize d n s).1 := by
  have hfed : Fed (n, { s with operators := [] }) := hn.fed (hs.setOperators [])
  have habove (os : List Operator) := congrArg Prod.fst (evaluate_above memoize d os hfed)
  exact (habove os).trans (habove s.operators).symm

lemma Settles.pushOperator (h : Settles memoize n s (.ok v) t) (hn : Tree .expression n) (hs : s.Proper)
    (o : Operator) : Settles memoize n (s.pushOperator o) (.ok v) (t.pushOperator o) := by
  obtain ⟨hr, d, hd⟩ := h
  have hfed : Fed (n, { s with operators := [] }) := hn.fed (hs.setOperators [])
  -- The evaluation is that above no operators, and so is the one below the further operator.
  rcases he : evaluate memoize d n { s with operators := [] } with ⟨r, u⟩
  have hs' := (evaluate_above memoize d s.operators hfed).symm.trans hd
  rw [he, Prod.mk.injEq] at hs'
  obtain ⟨rfl, rfl⟩ := hs'
  have hu : u.operators = [] := evaluate_operators he
  refine ⟨hr, d, (evaluate_above memoize d (o :: s.operators) hfed).trans ?_⟩
  simp only [he, Store.above, Store.pushOperator, hu, List.nil_append]

end

end LispKit.Lisp
