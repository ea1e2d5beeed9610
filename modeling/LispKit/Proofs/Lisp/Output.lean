import LispKit.Proofs.Lisp.Failure

/-! Output: nothing is printed but by print statements, and by them only if they end well. -/

namespace LispKit.Lisp

open Course

lemma Store.Proper.evaluate {s : Store} (hs : s.Proper) {n : Node} (hn : n.IsTree) (memoize : Bool) (d : Nat) :
    (Lisp.evaluate memoize d n s).2.Proper :=
  (stable_grown.evaluate d hn hs).2 hs

def Node.Quiet (n : Node) : Prop :=
  n.IsInner ∨ n.kind = .definition ∧ Tree .statement n

namespace Node.Quiet

variable {n c : Node}

lemma isTree (h : n.Quiet) : n.IsTree := by
  obtain ⟨x, _, hx⟩ | ⟨_, hx⟩ := h
  · exact ⟨x, hx⟩
  · exact ⟨.statement, hx⟩

lemma child (h : n.Quiet) (hc : c ∈ n.children) : c.Quiet := by
  obtain h | ⟨hk, h⟩ := h
  · exact .inl (h.child hc)
  · left
    cases h with
    | statement h => exact absurd hk (h.isInner (by simp [Symbol.IsInner])).kind_ne.1.1
    | printNumber | printBool => cases hk
    | variableDefinition hx hy =>
      obtain rfl | rfl : c = _ ∨ c = _ := by simpa [Node.children] using hc
      · exact hx.isInner (by simp [Symbol.IsInner])
      · exact hy.isInner (by simp [Symbol.IsInner])
    | functionDefinition hx hy =>
      obtain rfl | rfl : c = _ ∨ c = _ := by simpa [Node.children] using hc
      · exact hx.isInner (by simp [Symbol.IsInner])
      · exact hy.isInner (by simp [Symbol.IsInner])

lemma kind_ne (h : n.Quiet) : n.kind ≠ .printNumber ∧ n.kind ≠ .printBool := by
  obtain h | ⟨hk, _⟩ := h
  · exact h.kind_ne.2
  · simp [hk]

end Node.Quiet

def SameOut (s t : Store) : Prop :=
  t.out = s.out ∧ Grown s t

lemma Extends.sameOut {s t : Store} (h : Extends s t) : SameOut s t :=
  ⟨h.out, h.grown⟩

lemma Plain.sameOut {n : Node} {s t : Store} (h : Plain n s t) (hn : n.Quiet) : SameOut s t := by
  refine ⟨?_, h.grown hn.isTree⟩
  cases h with
  | print _ hk => exact (hk.elim hn.kind_ne.1 hn.kind_ne.2).elim
  | operators | global | function | argument | parameter => rfl

lemma stable_sameOut : Stable Node.Quiet Store.Proper SameOut :=
  .of_extends Node.Quiet.isTree .child (fun h => .inl h.inner_function) Extends.sameOut
    (fun h h' => ⟨h'.1.trans h.1, h.2.trans h'.2⟩) (fun h => h.2.2) fun hn h => h.sameOut hn

section

variable {memoize : Bool} {n c : Node} {s t : Store} {r : Except Fault Value} {e : Fault}

lemma Settles.out_eq (h : Settles memoize n s r t) (hn : n.Quiet) (hs : s.Proper) : t.out = s.out := by
  obtain ⟨-, d, hd⟩ := h
  have hend : SameOut s (evaluate memoize d n s).2 := stable_sameOut.evaluate d hn hs
  rw [hd] at hend
  exact hend.1

lemma Settles.of_printing (h : Settles memoize n s (.error e) t) (hn : n.kind = .printNumber ∨ n.kind = .printBool)
    (hc : n.children[0]? = some c) : ∃ r, Settles memoize c s r t := by
  have hr := (settles_iff.mp h).2
  obtain hk | hk := hn
  · simp only [Eval.step, hk] at hr
    rw [Eval.printNumber, Eval.bind_apply, Eval.child_apply hc] at hr
    obtain ⟨v, u, hv, hr⟩ | ⟨e', _, hv⟩ := runs_visit.mp hr
    · cases v with
      | int m =>
        replace hr : ((Eval.ofExcept (Value.write (.int m)) >>= fun line => do
          modify (·.print line)
          pure Value.nothing : Eval Value) u).Runs (Settles memoize) (.error e) t := hr
        cases hw : Value.write (.int m) with
        | ok line =>
          rw [hw] at hr
          exact absurd (runs_done.mp hr).1 (by simp)
        | error f =>
          rw [hw] at hr
          exact ⟨_, (runs_done.mp hr).2 ▸ hv⟩
      | _ => exact ⟨_, (runs_done.mp hr).2 ▸ hv⟩
    · exact ⟨_, hv⟩
  · simp only [Eval.step, hk] at hr
    rw [Eval.printBool, Eval.bind_apply, Eval.child_apply hc] at hr
    obtain ⟨v, u, hv, hr⟩ | ⟨e', _, hv⟩ := runs_visit.mp hr
    · cases v with
      | bool b => exact absurd (runs_done.mp hr).1 (by simp)
      | _ => exact ⟨_, (runs_done.mp hr).2 ▸ hv⟩
    · exact ⟨_, hv⟩

lemma Settles.out_eq_of_error (h : Settles memoize n s (.error e) t) (hn : Tree .statement n) (hs : s.Proper) :
    t.out = s.out := by
  have hexpression : ∀ {x : Node} {r}, Tree .expression x → Settles memoize x s r t → t.out = s.out :=
    fun hx h => h.out_eq (.inl (hx.isInner (by simp [Symbol.IsInner]))) hs
  cases hn with
  | statement hx => exact hexpression hx h
  | printNumber hx =>
    obtain ⟨r, hr⟩ := h.of_printing (.inl rfl) rfl
    exact hexpression hx hr
  | printBool hx =>
    obtain ⟨r, hr⟩ := h.of_printing (.inr rfl) rfl
    exact hexpression hx hr
  | variableDefinition hx hy hk => exact h.out_eq (.inr ⟨rfl, .variableDefinition hx hy hk⟩) hs
  | functionDefinition hx hy => exact h.out_eq (.inr ⟨rfl, .functionDefinition hx hy⟩) hs

end

end LispKit.Lisp
