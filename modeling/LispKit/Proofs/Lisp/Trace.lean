import LispKit.Proofs.Lisp.Course

/-! The evaluations that an evaluation comes to, as a list. -/

namespace LispKit.Lisp

def Course.trace {α : Type} (eval : Node → Store → Except Fault Value × Store) :
    Course α → List (Node × Store)
  | done _ _ => []
  | visit n s next => (n, s) ::
    match eval n s with
    | (.ok v, t) => (next v t).trace eval
    | (.error _, _) => []

def reached (memoize : Bool) : Nat → Node × Store → List (Node × Store)
  | 0, c => [c]
  | d + 1, c => c :: ((Eval.step memoize c.1 c.2).trace (evaluate memoize d)).flatMap (reached memoize d)

variable {memoize : Bool} {d : Nat} {n : Node} {s t : Store} {α : Type} {r : Except Fault α}

lemma Settles.of_evaluate {v : Value} (h : (evaluate memoize d n s).1.toOption = some v) :
    Settles memoize n s (.ok v) (evaluate memoize d n s).2 := by
  refine ⟨by simp, d, ?_⟩
  generalize evaluate memoize d n s = e at h ⊢
  obtain ⟨_ | _, _⟩ := e
  · simp [Except.toOption] at h
  · simpa [Except.toOption] using h

lemma Course.evaluate_ne {next : Value → Store → Course α}
    (h : (Course.visit n s next).run (evaluate memoize d) = (r, t)) (hr : r ≠ .error .tooDeep) :
    (evaluate memoize d n s).1 ≠ .error .tooDeep := by
  intro he
  rw [Course.run] at h
  rcases hn : evaluate memoize d n s with ⟨q, s'⟩
  rw [hn] at he h
  cases he
  cases h
  exact hr rfl

lemma Course.Visits.mem_trace {c : Course α} {m : Node} {u : Store}
    (hv : c.Visits (Settles memoize) (fun _ _ => True) m u) (hc : c.run (evaluate memoize d) = (r, t))
    (hr : r ≠ .error .tooDeep) :
    (m, u) ∈ c.trace (evaluate memoize d) ∧ (evaluate memoize d m u).1 ≠ .error .tooDeep := by
  induction hv with
  | here =>
    rw [Course.trace]
    exact ⟨List.mem_cons_self, Course.evaluate_ne hc hr⟩
  | @later n s next v s' m u _ hg _ ih =>
    have hn : evaluate memoize d n s = (.ok v, s') := by
      have h : Settles memoize n s _ _ := ⟨Course.evaluate_ne hc hr, d, rfl⟩
      obtain ⟨h₁, h₂⟩ := h.unique hg
      exact Prod.ext h₁ h₂
    rw [Course.run, hn] at hc
    obtain ⟨hm, hu⟩ := ih hc
    rw [Course.trace, hn]
    exact ⟨List.mem_cons_of_mem _ hm, hu⟩

lemma Reaches.mem_reached {c c' : Node × Store} (h : Reaches memoize c c')
    (he : (evaluate memoize d c.1 c.2).1 ≠ .error .tooDeep) : c' ∈ reached memoize d c := by
  induction h using Relation.ReflTransGen.head_induction_on generalizing d with
  | refl => cases d <;> simp [reached]
  | head hv _ ih =>
    cases d with
    | zero => exact (he rfl).elim
    | succ d =>
      obtain ⟨hm, hu⟩ := hv.mem_trace rfl he
      exact List.mem_cons_of_mem _ (List.mem_flatMap.mpr ⟨_, hm, ih hu⟩)

end LispKit.Lisp
