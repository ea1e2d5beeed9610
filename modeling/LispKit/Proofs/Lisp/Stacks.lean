import LispKit.Proofs.Lisp.Parallel

/-! The three stacks of a store: an evaluation that succeeds leaves them as they were, one that fails leaves
them as they were below what was pushed since. -/

namespace LispKit.Lisp

open Stacks

def Store.above (s : Store) (os : List Operator) : Store :=
  { s with operators := s.operators ++ os }

def Likeness.above (os : List Operator) : Likeness where
  Same := Eq
  Like s t := t = s.above os
  kind h := h ▸ rfl
  value h := h ▸ rfl
  child h i := h ▸ optionRel_self (fun _ => rfl) _
  scopes h := h ▸ rfl
  calls h := h ▸ Iff.rfl
  globals h := h ▸ rfl
  frame {s t i j} h hi hj := by
    subst h
    obtain rfl : i = j := Option.some.inj (hi.symm.trans hj)
    exact optionRel_self (fun f => ⟨⟨rfl, rfl, rfl, optionRel_self (fun _ => rfl) f.function⟩, fun _ => rfl⟩) (s.frame? i)
  push _ h := h ▸ rfl
  pop {s t o l l'} h hl hl' := by
    subst h
    obtain rfl : l ++ os = l' := by
      rw [Store.above, hl] at hl'
      exact List.tail_eq_of_cons_eq hl'
    rfl
  print _ h := h ▸ rfl
  global _ _ h := h ▸ rfl
  define _ hc h := h ▸ hc ▸ rfl
  update _ _ _ h hi hj := by
    subst h
    rw [Option.some.inj (hi.symm.trans hj)]
    rfl
  scope _ h := h ▸ rfl
  opened hc h := h ▸ hc ▸ rfl
  entered {s t name i u} h he := by
    subst h
    refine ⟨i, u.above os, ?_, rfl⟩
    cases he with
    | copy hc => exact .copy hc
    | own hc hf => exact .own hc hf
  missing h hc hf := h ▸ ⟨hc, hf⟩
  leave _ h hi hj := by
    subst h
    rw [List.tail_eq_of_cons_eq (hi.symm.trans hj)]
    rfl

lemma Likeness.remembers_above (os : List Operator) : (above os).Remembers :=
  ⟨fun h => h ▸ rfl, fun _ _ h => h ▸ rfl⟩

lemma Store.above_nil (s : Store) : s.above [] = s := by
  simp [above]

lemma disciplined_evaluate (memoize : Bool) (depth : Nat) (n : Node) (s : Store) :
    Disciplined s.stacks (evaluate memoize depth n s).1 (evaluate memoize depth n s).2.stacks := by
  obtain ⟨_, _, _, h, _⟩ := (Likeness.above []).evaluate (Likeness.remembers_above []) memoize
    (P := fun _ => True) (fun _ h => h) (fun _ _ hs => by rw [hs, Store.above_nil]) depth (n := n) (s := s) trivial rfl rfl
  exact h

/-- Whatever tree is evaluated on whatever store, however deep the evaluation may go: the stacks are the same
afterwards if it succeeds, and have kept what was on them if it fails. -/
theorem stacks_disciplined (memoize : Bool) (depth : Nat) (n : Node) (s : Store) :
    Disciplined s.stacks (evaluate memoize depth n s).1 (evaluate memoize depth n s).2.stacks :=
  disciplined_evaluate memoize depth n s

lemma Settles.disciplined {memoize : Bool} {n : Node} {s t : Store} {r : Except Fault Value}
    (h : Settles memoize n s r t) : Disciplined s.stacks r t.stacks := by
  obtain ⟨-, d, hd⟩ := h
  have hstacks := disciplined_evaluate memoize d n s
  rwa [hd] at hstacks

lemma Settles.operators {memoize : Bool} {n : Node} {s t : Store} {v : Value} (h : Settles memoize n s (.ok v) t) :
    t.operators = s.operators := by
  have hstacks : t.stacks = s.stacks := h.disciplined
  exact congrArg Stacks.operators hstacks

end LispKit.Lisp
