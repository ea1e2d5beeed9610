import LispKit.Lisp.Program
import LispKit.Proofs.Lisp.Lookup

/-! Failures: where the fault of an evaluation that fails comes from, and the faults that a node can make of
itself. -/

namespace LispKit.Lisp

open List Store Course

namespace Course

variable {α β : Type} {G : Meaning} {e : Fault} {s t : Store} {c : Course α}

inductive Fails (G : Meaning) : Course α → Fault → Store → Prop
  | done (e : Fault) (s : Store) : Fails G (.done (.error e) s) e s
  | next {n s next v s' e t} : G n s (.ok v) s' → Fails G (next v s') e t → Fails G (.visit n s next) e t

@[simp] lemma fails_done {r : Except Fault α} : (done r s).Fails G e t ↔ r = .error e ∧ t = s := by
  constructor
  · rintro ⟨⟩
    exact ⟨rfl, rfl⟩
  · rintro ⟨rfl, rfl⟩
    exact .done _ _

@[simp] lemma fails_visit {n : Node} {next : Value → Store → Course α} :
    (visit n s next).Fails G e t ↔ ∃ v s', G n s (.ok v) s' ∧ (next v s').Fails G e t := by
  constructor
  · rintro (_ | ⟨hg, hf⟩)
    exact ⟨_, _, hg, hf⟩
  · rintro ⟨v, s', hg, hf⟩
    exact .next hg hf

lemma fails_andThen {f : α → Store → Course β} :
    (c.andThen f).Fails G e t ↔ c.Fails G e t ∨ ∃ a u, c.Runs G (.ok a) u ∧ (f a u).Fails G e t := by
  induction c with
  | done r s =>
    cases r with
    | ok a => simp [andThen, and_assoc]
    | error e' => simp [andThen]
  | visit n s next ih =>
    simp only [andThen, fails_visit, runs_visit, ih]
    constructor
    · rintro ⟨v, s', hg, hf | ⟨a, u, hr, hf⟩⟩
      · exact .inl ⟨v, s', hg, hf⟩
      · exact .inr ⟨a, u, .inl ⟨v, s', hg, hr⟩, hf⟩
    · rintro (⟨v, s', hg, hf⟩ | ⟨a, u, ⟨v, s', hg, hr⟩ | ⟨e', he, _⟩, hf⟩)
      · exact ⟨v, s', hg, .inl hf⟩
      · exact ⟨v, s', hg, .inr ⟨a, u, hr, hf⟩⟩
      · cases he

lemma Fails.mono {H : Meaning} (h : c.Fails G e t) (hG : ∀ n s r t, G n s r t → H n s r t) : c.Fails H e t := by
  induction h with
  | done e s => exact .done e s
  | next hg _ ih => exact .next (hG _ _ _ _ hg) ih

lemma Runs.fails_or_visits (h : c.Runs G (.error e) t) :
    c.Fails G e t ∨ ∃ n s, c.Visits G (fun _ _ => True) n s ∧ G n s (.error e) t := by
  generalize hr : Except.error e = r at h
  induction h with
  | done r s =>
    subst hr
    exact .inl (.done e s)
  | next hg _ ih =>
    rcases ih hr with hf | ⟨n, s, hv, hn⟩
    · exact .inl (.next hg hf)
    · exact .inr ⟨n, s, .later trivial hg hv, hn⟩
  | fail hg =>
    cases hr
    exact .inr ⟨_, _, .here, hg⟩

end Course

lemma Settles.origin {memoize : Bool} {n : Node} {s t : Store} {e : Fault} (h : Settles memoize n s (.error e) t) :
    ∃ m u, Reaches memoize (n, s) (m, u) ∧ (Eval.step memoize m u).Fails (Settles memoize) e t := by
  refine Settles.induction (P := fun n s r t => ∀ e, r = .error e →
    ∃ m u, Reaches memoize (n, s) (m, u) ∧ (Eval.step memoize m u).Fails (Settles memoize) e t)
    (fun n s r t _ hr e he => ?_) h e rfl
  subst he
  rcases hr.fails_or_visits with hf | ⟨m, u, _, henters, _, ih⟩
  · exact ⟨n, s, .refl, hf.mono fun _ _ _ _ h => h.2.1⟩
  · obtain ⟨m', u', hreach, hfails⟩ := ih e rfl
    exact ⟨m', u', .head henters hreach, hfails⟩

lemma Binary.combine_error {b : Binary} {x y : Value} {e : Fault} (h : b.combine x y = .error e) :
    Running.isTypeFault e = true ∨ b = .divide ∧ e = .divisionByZero ∨ b = .modulo ∧ e = .moduloByZero := by
  have hgeneral : b.general x y = .error e → Running.isTypeFault e = true := by
    intro h
    cases b <;> cases x <;> cases y <;> cases h <;> rfl
  unfold Binary.combine at h
  split at h
  · exact .inl (hgeneral h)
  · split at h
    · unfold Binary.integer at h
      split at h
      all_goals first
        | cases h
        | split at h
          · cases h
            simp
          · cases h
    · exact .inl (hgeneral h)

namespace Eval

variable {α β : Type} {G : Meaning} {n c x y : Node} {s t : Store} {e : Fault} {k i : Nat} {f : Value → Eval β}

lemma fails_bind {x : Eval α} {f : α → Eval β} :
    ((x >>= f) s).Fails G e t ↔ (x s).Fails G e t ∨ ∃ a u, (x s).Runs G (.ok a) u ∧ (f a u).Fails G e t :=
  fails_andThen

lemma not_fails_pure {a : α} : ¬ ((pure a : Eval α) s).Fails G e t := by
  simp

section

variable (hc : n.children[k]? = some c)

include hc

lemma child_apply : child n k s = .done (.ok c) s := by
  unfold child
  rw [hc]
  rfl

lemma fails_child {f : Node → Eval β} : ((child n k >>= f) s).Fails G e t ↔ (f c s).Fails G e t := by
  rw [bind_apply, child_apply hc]
  rfl

lemma fails_visitChild :
    ((child n k >>= fun p => visit p >>= f) s).Fails G e t ↔ ∃ v u, G c s (.ok v) u ∧ (f v u).Fails G e t := by
  rw [bind_apply, child_apply hc]
  simp [Course.andThen, visit]

lemma not_fails_lastChild : ¬ ((child n k >>= visit) s).Fails G e t := by
  rw [bind_apply, child_apply hc]
  simp [Course.andThen, visit]

end

lemma fails_checkSameType {x y : Value} (h : (checkSameType x y s).Fails G e t) : e = .typeMismatch := by
  unfold checkSameType at h
  split at h
  · exact (not_fails_pure h).elim
  · exact (Except.error.inj (fails_done.mp h).1).symm

lemma fails_checkBool {x : Value} (h : (checkBool x s).Fails G e t) : e = .typeMismatch := by
  cases x with
  | bool b => exact (not_fails_pure h).elim
  | _ => exact (Except.error.inj (fails_done.mp h).1).symm

lemma fails_ofExcept {r : Except Fault α} (h : (ofExcept r s).Fails G e t) : r = .error e ∧ t = s := by
  cases r with
  | ok a => exact (not_fails_pure h).elim
  | error f => exact fails_done.mp h

lemma not_fails_popOperator {o : Operator} {os : List Operator} (hs : s.operators = o :: os) :
    ¬ (popOperator s).Fails G e t := by
  simp [popOperator, hs, Course.andThen]

section

variable (hG : ∀ n s v t, G n s (.ok v) t → t.operators = s.operators) {b : Binary}

include hG

lemma fails_binary {x y : Node} (hx : n.children[0]? = some x) (hy : n.children[1]? = some y)
    (h : (binary b n s).Fails G e t) : e = .typeMismatch ∨ ∃ u w, b.combine u w = .error e := by
  replace h : ((child n 0 >>= fun x => visit x >>= fun u => child n 1 >>= fun y => visit y >>= fun w => do
      checkSameType u w
      let r ← ofExcept (b.combine u w)
      popOperator
      pure r) (s.pushOperator (.binary b))).Fails G e t := h
  obtain ⟨u, s₁, hu, h⟩ := (fails_visitChild hx).mp h
  obtain ⟨w, s₂, hw, h⟩ := (fails_visitChild hy).mp h
  obtain h | ⟨_, s₃, hsame, h⟩ := fails_bind.mp h
  · exact .inl (fails_checkSameType h)
  obtain h | ⟨r, s₄, hr, h⟩ := fails_bind.mp h
  · exact .inr ⟨u, w, (fails_ofExcept h).1⟩
  have hoperators : s₄.operators = .binary b :: s.operators := by
    rw [(runs_ofExcept.mp hr).2, (runs_checkSameType.mp hsame).2, hG _ _ _ _ hw, hG _ _ _ _ hu]
    rfl
  obtain h | ⟨_, _, _, h⟩ := fails_bind.mp h
  · exact (not_fails_popOperator hoperators h).elim
  · exact (not_fails_pure h).elim

lemma fails_negation {x : Node} (hx : n.children[0]? = some x) (h : (negation n s).Fails G e t) :
    e = .typeMismatch := by
  replace h : ((child n 0 >>= fun x => visit x >>= fun u => do
      let b ← checkBool u
      popOperator
      pure (Value.bool !b)) (s.pushOperator .not)).Fails G e t := h
  obtain ⟨u, s₁, hu, h⟩ := (fails_visitChild hx).mp h
  obtain h | ⟨b, s₂, hb, h⟩ := fails_bind.mp h
  · exact fails_checkBool h
  have hoperators : s₂.operators = .not :: s.operators := by
    rw [(runs_checkBool.mp hb).2, hG _ _ _ _ hu]
    rfl
  obtain h | ⟨_, _, _, h⟩ := fails_bind.mp h
  · exact (not_fails_popOperator hoperators h).elim
  · exact (not_fails_pure h).elim

lemma fails_operands {x y : Node} (hs : s.operators.head? = some (.binary b)) (hx : n.children[0]? = some x)
    (hy : n.children[1]? = some y) (h : (operands n s).Fails G e t) :
    e = .typeMismatch ∨ ∃ u w, b.combine u w = .error e := by
  have hoperator : ∀ u : Store, u.operators = s.operators → operator u = .done (.ok (.binary b)) u := by
    intro u hu
    obtain ⟨os, hos⟩ := head?_eq_some_iff.mp (hu ▸ hs)
    simp [operator, hos, Course.andThen]
  obtain ⟨u, s₁, hu, h⟩ := (fails_visitChild hx).mp h
  rw [bind_apply, hoperator s₁ (hG _ _ _ _ hu)] at h
  replace h : (combineRest n u s₁).Fails G e t := h
  obtain ⟨w, s₂, hw, h⟩ := (fails_visitChild hy).mp h
  obtain h | ⟨_, s₃, hsame, h⟩ := fails_bind.mp h
  · exact .inl (fails_checkSameType h)
  have hoperators : s₃.operators = s.operators := by
    rw [(runs_checkSameType.mp hsame).2, hG _ _ _ _ hw, hG _ _ _ _ hu]
  rw [bind_apply, hoperator s₃ hoperators] at h
  exact .inr ⟨u, w, (fails_ofExcept h).1⟩

end

section

variable (hx : n.children[0]? = some x)

include hx

lemma fails_printNumber (h : (printNumber n s).Fails G e t) :
    e = .typeMismatch ∨ ∃ m, G x s (.ok (.int m)) t ∧ Text.exceedsDigitLimit m = true ∧ e = .longNumber := by
  obtain ⟨v, u, hv, h⟩ := (fails_visitChild hx).mp h
  cases v with
  | int m =>
    obtain h | ⟨line, _, hline, h⟩ := fails_bind.mp h
    · obtain ⟨hwrite, rfl⟩ := fails_ofExcept h
      rw [Value.write] at hwrite
      split at hwrite
      · exact .inr ⟨m, hv, ‹_›, (Except.error.inj hwrite).symm⟩
      · cases hwrite
    · simp [Course.andThen] at h
  | _ => exact .inl (Except.error.inj (fails_done.mp h).1).symm

lemma fails_printBool (h : (printBool n s).Fails G e t) : e = .typeMismatch := by
  obtain ⟨v, u, _, h⟩ := (fails_visitChild hx).mp h
  obtain h | ⟨b, _, _, h⟩ := fails_bind.mp h
  · exact fails_checkBool h
  · simp [Course.andThen] at h

lemma fails_test (h : (test n s).Fails G e t) : e = .typeMismatch := by
  obtain ⟨v, u, _, h⟩ := (fails_visitChild hx).mp h
  obtain h | ⟨b, _, _, h⟩ := fails_bind.mp h
  · exact fails_checkBool h
  · exact (not_fails_pure h).elim

lemma not_fails_conditional {z : Node} (hy : n.children[1]? = some y)
    (hz : n.children[2]? = some z) : ¬ (conditional n s).Fails G e t := by
  intro h
  obtain ⟨v, u, _, h⟩ := (fails_visitChild hx).mp h
  split at h
  · exact not_fails_lastChild hy h
  · exact not_fails_lastChild hz h

lemma not_fails_statements (hy : n.children[1]? = some y) : ¬ (statements n s).Fails G e t := by
  intro h
  obtain ⟨_, u, _, h⟩ := (fails_visitChild hx).mp h
  obtain ⟨_, w, _, h⟩ := (fails_visitChild hy).mp h
  exact not_fails_pure h

end

lemma nameOf_apply (hc : n.children[0]? = some c) : nameOf n s = .done (.ok c.value) s := by
  rw [nameOf, bind_apply, child_apply hc]
  rfl

lemma fails_nameOf (hc : n.children[0]? = some c) : ((nameOf n >>= f) s).Fails G e t ↔ (f c.value s).Fails G e t := by
  rw [bind_apply, nameOf_apply hc]
  rfl

lemma not_fails_definition (hx : n.children[0]? = some x) (hc : x.children[0]? = some c)
    (hk : x.kind = .reference ∨ x.kind = .functionName) (hy : n.children[1]? = some y) :
    ¬ (definition n s).Fails G e t := by
  intro h
  replace h := (fails_child hx).mp h
  rcases hk with hk | hk
  · simp only [hk] at h
    obtain ⟨v, u, _, h⟩ := (fails_visitChild hy).mp h
    replace h := (fails_nameOf hc).mp h
    simp [Course.andThen] at h
  · simp only [hk] at h
    replace h := (fails_child hy).mp ((fails_nameOf hc).mp h)
    simp [Course.andThen] at h

lemma not_fails_visitRest {kind : Kind} {v : Value} : ¬ ((visitRest kind y >>= fun _ => pure v) s).Fails G e t := by
  intro h
  obtain h | ⟨_, w, _, h⟩ := fails_bind.mp h
  · unfold visitRest at h
    split at h
    · simp [visit, Course.andThen] at h
    · exact not_fails_pure h
  · exact not_fails_pure h

lemma not_fails_arguments {c : Node} (hx : n.children[0]? = some x) (hk : x.kind = .argument)
    (hc : x.children[0]? = some c) (hy : n.children[1]? = some y) (hs : s.calls.head? = some i) :
    ¬ (arguments n s).Fails G e t := by
  intro h
  obtain h | ⟨_, u, _, h⟩ := fails_bind.mp ((fails_child hx).mp h)
  · rw [addArgument, if_pos hk, bind_apply, currentCall_apply hs] at h
    obtain ⟨v, u, _, h⟩ := (fails_visitChild hc).mp h
    simp at h
  · exact not_fails_visitRest ((fails_child hy).mp h)

lemma fails_parameterList {c : Node} (hx : n.children[0]? = some x) (hc : x.children[0]? = some c)
    (hy : n.children[1]? = some y) (h : (parameterList n s).Fails G e t) : e = .listRange ∧ s.calls = [] := by
  obtain h | ⟨_, u, _, h⟩ := fails_bind.mp ((fails_child hx).mp h)
  · unfold addParameter at h
    split at h
    · cases hs : s.calls with
      | nil =>
        simp only [currentCall, bind_apply, get_apply, Course.andThen, hs, fail, fails_done] at h
        exact ⟨(Except.error.inj h.1).symm, rfl⟩
      | cons i is =>
        rw [bind_apply, currentCall_apply (by rw [hs]; rfl)] at h
        replace h := (fails_nameOf hc).mp h
        simp at h
    · exact (not_fails_pure h).elim
  · exact (not_fails_visitRest ((fails_child hy).mp h)).elim

lemma fails_bindFrom {ps : List Value} {f : Frame} (hf : s.frame? i = some f)
    (h : (bindFrom i ps k s).Fails G e t) : e = .listRange ∧ f.arguments.length < k + ps.length ∧
      t.calls = s.calls ∧ ∃ g, t.frame? i = some g ∧ g.arguments = f.arguments ∧ g.parameters = f.parameters := by
  induction ps generalizing k s f with
  | nil => exact (not_fails_pure h).elim
  | cons p ps ih =>
    rw [bindFrom, bind_apply, frameAt_apply hf] at h
    simp only [Course.andThen] at h
    cases hk : f.arguments[k]? with
    | none =>
      simp only [hk, fail, fails_done] at h
      obtain ⟨he, rfl⟩ := h
      rw [List.getElem?_eq_none_iff] at hk
      exact ⟨(Except.error.inj he).symm, by rw [length_cons]; omega, rfl, f, hf, rfl, rfl⟩
    | some v =>
      simp only [hk] at h
      have hf' : (s.modifyFrame i fun f => { f with bindings := f.bindings.insert ⟨p⟩ v }).frame? i =
          some { f with bindings := f.bindings.insert ⟨p⟩ v } := by
        rw [frame?_modifyFrame, if_pos rfl, hf]
        rfl
      obtain ⟨he, hlt, hcalls, g, hg, harguments, hparameters⟩ := ih (k := k + 1) hf' h
      have hlt : f.arguments.length < k + 1 + ps.length := hlt
      exact ⟨he, by rw [length_cons]; omega, hcalls, g, hg, harguments, hparameters⟩

end Eval

def Kind.arity : Kind → Nat
  | .conditional => 3
  | .statements | .binary _ | .operands | .definition | .callAnonymous | .callDefined | .function | .parameterList
  | .arguments => 2
  | .negation | .printNumber | .printBool | .test | .consequence | .alternative | .reference | .parameters | .body
  | .functionName | .argument => 1
  | .number | .bool | .identifier | .null | .other _ => 0

lemma Node.IsTree.arity {n : Node} (h : n.IsTree) : n.children.length = n.kind.arity := by
  obtain ⟨x, h⟩ := h
  induction h with
  | ofReference _ ih | ofFunction _ ih | ofExpression _ ih | statement _ ih | lastStatement _ ih => exact ih
  | _ => rfl

lemma Node.IsTree.exists_child {n : Node} {k : Nat} (h : n.IsTree) (hk : k < n.kind.arity) :
    ∃ c, n.children[k]? = some c :=
  ⟨_, getElem?_eq_getElem (h.arity ▸ hk)⟩

lemma Tree.exists_body {n : Node} (h : Tree .function n) : ∃ c, n.children[1]? = some c := by
  cases h with
  | function => exact ⟨_, rfl⟩

lemma Node.IsTree.exists_callee {n : Node} (h : n.IsTree) (hk : n.kind = .callDefined) :
    ∃ f c w, n.children[0]? = some f ∧ f.children[0]? = some c ∧ c.value = .text w := by
  obtain ⟨x, h⟩ := h
  induction h with
  | ofReference _ ih | ofFunction _ ih | ofExpression _ ih | statement _ ih | lastStatement _ ih => exact ih hk
  | callDefined hf _ =>
    cases hf with
    | functionName hc =>
      cases hc with
      | identifier => exact ⟨_, _, _, rfl, rfl, rfl⟩
  | _ => cases hk

def Store.LacksArguments (s : Store) : Prop :=
  ∃ i f, s.calls.head? = some i ∧ s.frame? i = some f ∧ f.arguments.length < f.parameters.length

namespace Eval

variable {memoize : Bool} {n function args body : Node} {s t : Store} {e : Fault} {i : Nat} {name v : Value}

lemma fails_passArguments (hargs : n.children[1]? = some args) (hbody : function.children[1]? = some body)
    (hinner : args.IsInner) (hs : s.Proper) (hi : i < s.frames.size) (hcalls : s.calls.head? = some i)
    (h : (passArguments n i function s).Fails (Settles memoize) e t) : e = .listRange ∧ t.LacksArguments := by
  obtain ⟨v, u, hv, h⟩ := (fails_visitChild hargs).mp h
  obtain ⟨f, hf⟩ := exists_frame (Nat.lt_of_lt_of_le hi (hv.extends hinner hs).size)
  obtain h | ⟨_, w, _, h⟩ := fails_bind.mp h
  · rw [Eval.bind, bind_apply, frameAt_apply hf] at h
    obtain ⟨he, hlt, hlevel, g, hg, harguments, hparameters⟩ := fails_bindFrom hf h
    refine ⟨he, i, g, ?_, hg, ?_⟩
    · rw [hlevel, hv.level.1, hcalls]
    · rw [harguments, hparameters]
      simpa using hlt
  · rw [child_apply hbody] at h
    simp at h

lemma not_fails_openAnonymous (hc : n.children[0]? = some function) :
    ¬ (openAnonymous n s).Fails (Settles memoize) e t := by
  intro h
  obtain h | ⟨_, u, _, h⟩ := fails_bind.mp h
  · simp at h
  · replace h := (fails_child hc).mp h
    simp [visit, Course.andThen] at h

lemma not_fails_leaveWith {is : List Nat} {x : Scope} {xs : List Scope} (hcalls : s.calls = i :: is)
    (hscopes : s.scopes = x :: xs) : ¬ (leaveWith v s).Fails (Settles memoize) e t := by
  simp [leaveWith, leaveCall, hcalls, hscopes, Course.andThen]

lemma fails_callAnonymous (hc : Regular (n, s)) (hk : n.kind = .callAnonymous)
    (h : (callAnonymous n s).Fails (Settles memoize) e t) : e = .listRange ∧ t.LacksArguments := by
  have hn : n.IsInner := hc.tree.inner_of_call (.inl hk)
  obtain ⟨function, hfunction⟩ := hc.tree.exists_child (k := 0) (by rw [hk]; decide)
  obtain ⟨args, hargs⟩ := hc.tree.exists_child (k := 1) (by rw [hk]; decide)
  obtain h | ⟨⟨i, function⟩, u, ho, h⟩ := fails_bind.mp h
  · exact (not_fails_openAnonymous hfunction h).elim
  have hu := (stable_extends.openAnonymous settles_extends hn hk hc.proper ho).1
  obtain ⟨hcalls, hscopes⟩ := calls_openAnonymous settles_level ho
  obtain ⟨body, hbody⟩ := (hn.callee hk (runs_openAnonymous.mp ho).1).exists_body
  obtain h | ⟨body, w, hp, h⟩ := fails_bind.mp h
  · exact fails_passArguments hargs hbody (hn.child (mem_of_getElem? hargs)) (hu.proper hc.proper)
      (place_openAnonymous settles_extends hn hk hc.proper ho) (by rw [hcalls]; rfl) h
  obtain ⟨hcalls', hscopes'⟩ := level_passArguments settles_level hp
  obtain h | ⟨r, x, hr, h⟩ := fails_bind.mp h
  · simp [visit] at h
  have hlevel := (runs_visit_ok.mp hr).level
  exact (not_fails_leaveWith (hlevel.1.trans (hcalls'.trans hcalls)) (hlevel.2.trans (hscopes'.trans hscopes)) h).elim

lemma entered_function (hs : s.Proper) (hfun : ∀ i f, s.frame? i = some f → ∃ function, f.function = some function)
    {u : Store} (he : Entered (s.pushScope .defined) name i u) :
    ∃ g function, u.frame? i = some g ∧ g.function = some function := by
  cases he with
  | @copy top f hcurrent =>
    obtain ⟨function, hfunction⟩ := hfun _ _ (frame?_of_current? hcurrent)
    exact ⟨{ f with parameters := [], arguments := [], caller := some top }, function, by simp [Store.frame?], hfunction⟩
  | own _ hplace =>
    obtain ⟨e, hmem, _, rfl⟩ := Registry.mem_of_get? hplace
    obtain ⟨f, hf⟩ := exists_frame (hs.place e hmem)
    obtain ⟨function, hfunction⟩ := hfun _ _ hf
    refine ⟨{ f with parameters := [], arguments := [], caller := s.calls.head? }, function, ?_, hfunction⟩
    change (s.modifyFrame e.2 _).frame? e.2 = _
    rw [frame?_modifyFrame, if_pos rfl, hf]
    rfl

lemma fails_openDefined {f c : Node} (hf : n.children[0]? = some f) (hc : f.children[0]? = some c)
    (hfun : ∀ i u, Entered (s.pushScope .defined) c.value i u → ∃ g function, u.frame? i = some g ∧
      g.function = some function)
    (h : (openDefined n s).Fails (Settles memoize) e t) : e = unbound c.value ∧ s.current? c.value = none ∧
      s.functions.get? ⟨c.value⟩ = none := by
  obtain h | ⟨_, u, hpush, h⟩ := fails_bind.mp h
  · simp at h
  obtain ⟨-, rfl⟩ := runs_done.mp hpush
  replace h := (fails_nameOf hc).mp ((fails_child hf).mp h)
  obtain ⟨i, u, he⟩ | ⟨hcurrent, hmissing⟩ := entered_or_missing (s.pushScope .defined) c.value
  · obtain ⟨g, function, hg, hfunction⟩ := hfun i u he
    rw [bind_apply, enterDefined_apply he] at h
    have hfunctionOf : functionOf i u = .done (.ok function) u := by
      simp [functionOf, frameAt_apply hg, Course.andThen, hfunction]
    simp [Course.andThen, hfunctionOf, visit] at h
  · rw [bind_apply, enterDefined_missing hcurrent hmissing, missing_eq] at h
    simp only [Course.andThen, fails_done] at h
    exact ⟨(Except.error.inj h.1).symm, hcurrent, hmissing⟩

lemma not_fails_answer (hi : i < s.frames.size) (hbody : body.IsInner) (hs : s.Proper) :
    ¬ (answer memoize name i body s).Fails (Settles memoize) e t := by
  intro h
  obtain ⟨f, hf⟩ := exists_frame hi
  rw [answer_apply hf] at h
  cases hknown : (if memoize then s.memo.get? ⟨name, f.arguments⟩ else none) with
  | some v =>
    rw [hknown] at h
    simp at h
  | none =>
    rw [hknown] at h
    obtain h | ⟨v, u, hv, h⟩ := fails_bind.mp h
    · simp [visit] at h
    obtain ⟨g, hg⟩ := exists_frame (Nat.lt_of_lt_of_le hi ((runs_visit_ok.mp hv).extends hbody hs).size)
    simp [remember, callOf, frameAt_apply hg, Course.andThen] at h

lemma fails_callDefined (hc : Regular (n, s)) (hk : n.kind = .callDefined)
    (hfun : ∀ i f, s.frame? i = some f → ∃ function, f.function = some function)
    (h : (callDefined memoize n s).Fails (Settles memoize) e t) : e = .listRange ∧ t.LacksArguments ∨
      ∃ name, n.callee? = some name ∧ s.current? name = none ∧ s.functions.get? ⟨name⟩ = none ∧ e = unbound name := by
  have hn : n.IsInner := hc.tree.inner_of_call (.inr hk)
  obtain ⟨callee, c, _, hcallee, hname, _⟩ := hc.tree.exists_callee hk
  obtain ⟨args, hargs⟩ := hc.tree.exists_child (k := 1) (by rw [hk]; decide)
  obtain h | ⟨⟨name, i, body⟩, w, hp, h⟩ := fails_bind.mp h
  · obtain h | ⟨⟨name, i, function⟩, u, ho, h⟩ := fails_bind.mp h
    · obtain ⟨he, hcurrent, hmissing⟩ := fails_openDefined hcallee hname (fun i u => entered_function hc.proper hfun) h
      exact .inr ⟨c.value, callee?_eq_some.mpr ⟨callee, hcallee, c, hname, rfl⟩, hcurrent, hmissing, he⟩
    have hu := (stable_extends.openDefined settles_extends hc.proper ho).1
    obtain ⟨body, hbody⟩ := (function_openDefined hc.proper ho).exists_body
    have hcalls := (calls_openDefined settles_level ho).1
    obtain h | ⟨_, _, _, h⟩ := fails_bind.mp h
    · exact .inl (fails_passArguments hargs hbody (hn.child (mem_of_getElem? hargs)) (hu.proper hc.proper)
        (place_openDefined settles_extends hc.proper ho) (by rw [hcalls]; rfl) h)
    · exact (not_fails_pure h).elim
  obtain ⟨function, u, ho, hp⟩ := runs_prepare.mp hp
  obtain ⟨hu, hf⟩ := stable_extends.openDefined settles_extends hc.proper ho
  obtain ⟨hw, hbody⟩ := stable_extends.passArguments settles_extends hn hf (hu.proper hc.proper) hp
  obtain ⟨hcalls, hscopes⟩ := calls_openDefined settles_level ho
  obtain ⟨hcalls', hscopes'⟩ := level_passArguments settles_level hp
  obtain h | ⟨r, x, hr, h⟩ := fails_bind.mp h
  · exact (not_fails_answer (Nat.lt_of_lt_of_le (place_openDefined settles_extends hc.proper ho) hw.size) hbody
      ((hu.trans hw).proper hc.proper) h).elim
  · have hlevel := level_answer settles_level hr
    exact (not_fails_leaveWith (hlevel.1.trans (hcalls'.trans hcalls)) (hlevel.2.trans (hscopes'.trans hscopes)) h).elim

end Eval

end LispKit.Lisp
