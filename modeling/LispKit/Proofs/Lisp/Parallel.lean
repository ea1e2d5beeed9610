import LispKit.Proofs.Lisp.Call
import Mathlib.Data.List.Infix

/-! Evaluations side by side: on stores that are alike in what an evaluation asks of them, two evaluations take the
same way, and the stacks of each are at the end what they were. -/

namespace LispKit.Lisp

open List

@[ext] structure Stacks where
  operators : List Operator
  scopes : List Scope
  calls : List Nat

def Store.stacks (s : Store) : Stacks :=
  ⟨s.operators, s.scopes, s.calls⟩

namespace Stacks

structure Below (k l : Stacks) : Prop where
  operators : k.operators <:+ l.operators
  scopes : k.scopes <:+ l.scopes
  calls : k.calls <:+ l.calls

variable {k l m : Stacks}

lemma Below.refl (k : Stacks) : Below k k :=
  ⟨suffix_rfl, suffix_rfl, suffix_rfl⟩

lemma Below.trans (h : Below k l) (h' : Below l m) : Below k m :=
  ⟨h.operators.trans h'.operators, h.scopes.trans h'.scopes, h.calls.trans h'.calls⟩

def pushOperator (k : Stacks) (o : Operator) : Stacks :=
  { k with operators := o :: k.operators }

def pushScope (k : Stacks) (c : Scope) : Stacks :=
  { k with scopes := c :: k.scopes }

def pushCall (k : Stacks) (i : Nat) : Stacks :=
  { k with calls := i :: k.calls }

lemma Below.pushOperator (h : Below k l) (o : Operator) : Below k (l.pushOperator o) :=
  ⟨h.operators.trans (suffix_cons o l.operators), h.scopes, h.calls⟩

lemma Below.pushScope (h : Below k l) (c : Scope) : Below k (l.pushScope c) :=
  ⟨h.operators, h.scopes.trans (suffix_cons c l.scopes), h.calls⟩

lemma Below.pushCall (h : Below k l) (i : Nat) : Below k (l.pushCall i) :=
  ⟨h.operators, h.scopes, h.calls.trans (suffix_cons i l.calls)⟩

def Disciplined {α : Type} (before : Stacks) (r : Except Fault α) (after : Stacks) : Prop :=
  match r with
  | .ok _ => after = before
  | .error _ => Below before after

end Stacks

open Stacks

def Frame.update (f : Frame) (p a : List Value → List Value) (b : Registry Key Value → Registry Key Value) : Frame :=
  { f with parameters := p f.parameters, arguments := a f.arguments, bindings := b f.bindings }

structure Frame.Like (Same : Node → Node → Prop) (f g : Frame) : Prop where
  parameters : g.parameters = f.parameters
  arguments : g.arguments = f.arguments
  bindings : g.bindings = f.bindings
  function : Option.Rel Same f.function g.function

lemma optionRel_map {α β : Type} {r : α → β → Prop} {f : α → β} (h : ∀ a, r a (f a)) (x : Option α) :
    Option.Rel r x (x.map f) := by
  cases x with
  | none => exact .none
  | some a => exact .some (h a)

lemma optionRel_self {α : Type} {r : α → α → Prop} (h : ∀ a, r a a) (x : Option α) : Option.Rel r x x := by
  simpa using optionRel_map (f := id) h x

/-- A likeness of nodes and of stores that no evaluation tells apart: what it asks of one it learns of the other, and
what it does to both leaves them alike. The records of the calls may lie in different places. -/
structure Likeness where
  Same : Node → Node → Prop
  Like : Store → Store → Prop
  kind : ∀ {n m}, Same n m → m.kind = n.kind
  value : ∀ {n m}, Same n m → m.value = n.value
  child : ∀ {n m}, Same n m → ∀ i : Nat, Option.Rel Same n.children[i]? m.children[i]?
  scopes : ∀ {s t}, Like s t → t.scopes = s.scopes
  calls : ∀ {s t}, Like s t → (s.calls = [] ↔ t.calls = [])
  globals : ∀ {s t}, Like s t → t.globals = s.globals
  frame : ∀ {s t i j}, Like s t → s.calls.head? = some i → t.calls.head? = some j →
    Option.Rel (fun f g => f.Like Same g ∧ ∀ name, t.callerBinding g name = s.callerBinding f name)
      (s.frame? i) (t.frame? j)
  push : ∀ {s t} o, Like s t → Like (s.pushOperator o) (t.pushOperator o)
  pop : ∀ {s t o os os'}, Like s t → s.operators = o :: os → t.operators = o :: os' →
    Like { s with operators := os } { t with operators := os' }
  print : ∀ {s t} line, Like s t → Like (s.print line) (t.print line)
  global : ∀ {s t} name v, Like s t →
    Like { s with globals := s.globals.insert ⟨name⟩ v } { t with globals := t.globals.insert ⟨name⟩ v }
  define : ∀ {s t c d} name, Same c d → Like s t →
    Like { s with
        frames := s.frames.push { name := name, function := some c }
        functions := s.functions.insert ⟨name⟩ s.frames.size }
      { t with
        frames := t.frames.push { name := name, function := some d }
        functions := t.functions.insert ⟨name⟩ t.frames.size }
  update : ∀ {s t i j} p a b, Like s t → s.calls.head? = some i → t.calls.head? = some j →
    Like (s.modifyFrame i (·.update p a b)) (t.modifyFrame j (·.update p a b))
  scope : ∀ {s t} c, Like s t → Like (s.pushScope c) (t.pushScope c)
  opened : ∀ {s t c d}, Same c d → Like s t →
    Like { s with
        frames := s.frames.push { name := anonymousName, function := some c }
        calls := s.frames.size :: s.calls }
      { t with
        frames := t.frames.push { name := anonymousName, function := some d }
        calls := t.frames.size :: t.calls }
  entered : ∀ {s t name i u}, Like s t → Entered s name i u → ∃ j w, Entered t name j w ∧ Like u w
  missing : ∀ {s t name}, Like s t → s.current? name = none → s.functions.get? ⟨name⟩ = none →
    t.current? name = none ∧ t.functions.get? ⟨name⟩ = none
  leave : ∀ {s t i j is js} cs, Like s t → s.calls = i :: is → t.calls = j :: js →
    Like { s with calls := is, scopes := cs } { t with calls := js, scopes := cs }

namespace Likeness

structure Remembers (T : Likeness) : Prop where
  memo : ∀ {s t}, T.Like s t → t.memo = s.memo
  remember : ∀ {s t} call v, T.Like s t →
    T.Like { s with memo := s.memo.insert call v } { t with memo := t.memo.insert call v }

end Likeness

variable {T : Likeness} {k₀ k l : Stacks} {α β γ δ : Type}

namespace Course

/-- Two courses evaluate nodes that are the same in stores that are alike, and come to such ends, as long as the
descendants do so and leave the stacks as they find them. -/
inductive Beside (T : Likeness) (k₀ : Stacks) (Q : α → Store → β → Store → Prop) : Course α → Course β → Prop
  | ok {a b s t} : T.Like s t → Q a s b t → Beside T k₀ Q (.done (.ok a) s) (.done (.ok b) t)
  | error {e s t} : T.Like s t → Below k₀ s.stacks → Beside T k₀ Q (.done (.error e) s) (.done (.error e) t)
  | visit {n m s t next next'} : T.Same n m → T.Like s t → Below k₀ s.stacks →
      (∀ v s' t', T.Like s' t' → s'.stacks = s.stacks → t'.stacks = t.stacks →
        Beside T k₀ Q (next v s') (next' v t')) →
      Beside T k₀ Q (.visit n s next) (.visit m t next')

variable {Q : α → Store → β → Store → Prop} {Q' : γ → Store → δ → Store → Prop} {c : Course α} {c' : Course β}

lemma Beside.andThen {f : α → Store → Course γ} {g : β → Store → Course δ} (h : Beside T k₀ Q c c')
    (hf : ∀ a s b t, T.Like s t → Q a s b t → Beside T k₀ Q' (f a s) (g b t)) :
    Beside T k₀ Q' (c.andThen f) (c'.andThen g) := by
  induction h with
  | ok hs hq => exact hf _ _ _ _ hs hq
  | error hs hk => exact .error hs hk
  | visit hn hs hk _ ih => exact .visit hn hs hk ih

def Follows (T : Likeness) (H : Meaning) (m : Node) (s t : Store) (r : Except Fault Value) (s' : Store) : Prop :=
  ∃ t', H m t r t' ∧ T.Like s' t' ∧ Disciplined s.stacks r s'.stacks ∧ ∀ v, r = .ok v → t'.stacks = t.stacks

lemma Beside.runs {G H : Meaning} {r : Except Fault α} {s' : Store} (h : Beside T k₀ Q c c')
    (hG : ∀ n m s t r s', c.Visits G (fun _ _ => True) n s → c'.Visits H (fun _ _ => True) m t → T.Same n m →
      T.Like s t → G n s r s' → Follows T H m s t r s') (hr : c.Runs G r s') :
    (∃ a b t', r = .ok a ∧ c'.Runs H (.ok b) t' ∧ T.Like s' t' ∧ Q a s' b t') ∨
      ∃ e t', r = .error e ∧ c'.Runs H (.error e) t' ∧ T.Like s' t' ∧ Below k₀ s'.stacks := by
  induction h with
  | ok hs hq =>
    obtain ⟨rfl, rfl⟩ := runs_done.mp hr
    exact .inl ⟨_, _, _, rfl, .done _ _, hs, hq⟩
  | error hs hk =>
    obtain ⟨rfl, rfl⟩ := runs_done.mp hr
    exact .inr ⟨_, _, rfl, .done _ _, hs, hk⟩
  | @visit n m s t next next' hn hs hk _ ih =>
    obtain ⟨v, u, hg, hr⟩ | ⟨e, rfl, hg⟩ := runs_visit.mp hr
    · obtain ⟨w, hw, hs', hu, ht⟩ := hG n m s t _ u .here .here hn hs hg
      have hlater : ∀ x y p q r s', (next v u).Visits G (fun _ _ => True) x p →
          (next' v w).Visits H (fun _ _ => True) y q → T.Same x y → T.Like p q → G x p r s' → Follows T H y p q r s' :=
        fun x y p q r s' hx hy => hG x y p q r s' (.later trivial hg hx) (.later trivial hw hy)
      obtain ⟨a, b, t', rfl, hr', h'⟩ | ⟨e, t', rfl, hr', h'⟩ := ih v u w hs' hu (ht v rfl) hlater hr
      · exact .inl ⟨a, b, t', rfl, .next hw hr', h'⟩
      · exact .inr ⟨e, t', rfl, .next hw hr', h'⟩
    · obtain ⟨w, hw, hs', hu, _⟩ := hG n m s t _ s' .here .here hn hs hg
      exact .inr ⟨e, w, rfl, .fail hw, hs', hk.trans hu⟩

end Course

namespace Eval

/-- Two parts of evaluations go side by side, from the stacks `k` and `l` to those that their results name. Where they
fail, the stacks `k₀` that the first has begun with are still below. -/
def Beside (T : Likeness) (k₀ k l : Stacks) (V : α → β → Prop) (p : α → Stacks) (q : β → Stacks) (x : Eval α)
    (y : Eval β) : Prop :=
  ∀ s t, T.Like s t → s.stacks = k → t.stacks = l →
    (x s).Beside T k₀ (fun a s' b t' => V a b ∧ s'.stacks = p a ∧ t'.stacks = q b) (y t)

abbrev Along (T : Likeness) (k₀ k l : Stacks) (V : α → β → Prop) (x : Eval α) (y : Eval β) : Prop :=
  Beside T k₀ k l V (fun _ => k) (fun _ => l) x y

variable {V : α → β → Prop} {W : γ → δ → Prop} {p : α → Stacks} {q : β → Stacks} {p' : γ → Stacks} {q' : δ → Stacks}
  {n m : Node} {i j : Nat}

lemma Beside.bind {x : Eval α} {y : Eval β} {f : α → Eval γ} {g : β → Eval δ} (h : Beside T k₀ k l V p q x y)
    (hf : ∀ a b, V a b → Beside T k₀ (p a) (q b) W p' q' (f a) (g b)) : Beside T k₀ k l W p' q' (x >>= f) (y >>= g) :=
  fun s t hs hk hl => (h s t hs hk hl).andThen fun a s' b t' hs' h => hf a b h.1 s' t' hs' h.2.1 h.2.2

lemma Beside.bind_eq {x y : Eval α} {f : α → Eval γ} {g : α → Eval δ} {q : α → Stacks}
    (h : Beside T k₀ k l Eq p q x y) (hf : ∀ a, Beside T k₀ (p a) (q a) W p' q' (f a) (g a)) :
    Beside T k₀ k l W p' q' (x >>= f) (y >>= g) :=
  h.bind fun a _ hab => hab ▸ hf a

lemma beside_pure {a : α} {b : β} (h : V a b) (hp : p a = k) (hq : q b = l) : Beside T k₀ k l V p q (pure a) (pure b) :=
  fun _ _ hs hk hl => .ok hs ⟨h, hk.trans hp.symm, hl.trans hq.symm⟩

lemma along_pure (a : α) : Along T k₀ k l Eq (pure a) (pure a) :=
  beside_pure rfl rfl rfl

lemma beside_modify {F G : Store → Store} {k' l' : Stacks}
    (h : ∀ s t, T.Like s t → s.stacks = k → t.stacks = l → T.Like (F s) (G t))
    (hF : ∀ s, s.stacks = k → (F s).stacks = k') (hG : ∀ t, t.stacks = l → (G t).stacks = l') :
    Beside T k₀ k l Eq (fun _ => k') (fun _ => l') (modify F : Eval Unit) (modify G : Eval Unit) :=
  fun s t hs hk hl => .ok (h s t hs hk hl) ⟨rfl, hF s hk, hG t hl⟩

lemma along_modify {F G : Store → Store} (h : ∀ s t, T.Like s t → s.stacks = k → t.stacks = l → T.Like (F s) (G t))
    (hF : ∀ s, (F s).stacks = s.stacks) (hG : ∀ t, (G t).stacks = t.stacks) :
    Along T k₀ k l Eq (modify F : Eval Unit) (modify G : Eval Unit) :=
  beside_modify h (fun s hs => (hF s).trans hs) fun t ht => (hG t).trans ht

lemma beside_pushOperator (o : Operator) : Beside T k₀ k l Eq (fun _ => k.pushOperator o) (fun _ => l.pushOperator o)
      (modify (·.pushOperator o) : Eval Unit) (modify (·.pushOperator o) : Eval Unit) :=
  beside_modify (fun _ _ hs _ _ => T.push o hs) (fun s hs => by rw [← hs]; rfl) fun t ht => by rw [← ht]; rfl

lemma beside_pushScope (c : Scope) : Beside T k₀ k l Eq (fun _ => k.pushScope c) (fun _ => l.pushScope c)
      (modify (·.pushScope c) : Eval Unit) (modify (·.pushScope c) : Eval Unit) :=
  beside_modify (fun _ _ hs _ _ => T.scope c hs) (fun s hs => by rw [← hs]; rfl) fun t ht => by rw [← ht]; rfl

lemma beside_popOperator (o : Operator) :
    Beside T k₀ (k.pushOperator o) (l.pushOperator o) Eq (fun _ => k) (fun _ => l) popOperator popOperator := by
  intro s t hs hk hl
  obtain ⟨hko, hks, hkc⟩ := Stacks.ext_iff.mp hk
  obtain ⟨hlo, hls, hlc⟩ := Stacks.ext_iff.mp hl
  have hpop : ∀ (u : Store) (os : List Operator), u.operators = o :: os →
      popOperator u = .done (.ok ()) { u with operators := os } := by
    intro u os hu
    simp [popOperator, hu, Course.andThen]
  rw [hpop s _ hko, hpop t _ hlo]
  exact .ok (T.pop hs hko hlo) ⟨rfl, Stacks.ext rfl hks hkc, Stacks.ext rfl hls hlc⟩

lemma beside_leaveCall (c : Scope) (i j : Nat) :
    Beside T k₀ ((k.pushScope c).pushCall i) ((l.pushScope c).pushCall j) Eq (fun _ => k) (fun _ => l)
      leaveCall leaveCall := by
  intro s t hs hk hl
  obtain ⟨hko, hks, hkc⟩ := Stacks.ext_iff.mp hk
  obtain ⟨hlo, hls, hlc⟩ := Stacks.ext_iff.mp hl
  have hleave : ∀ (u : Store) (m : Stacks) (i : Nat), u.scopes = c :: m.scopes → u.calls = i :: m.calls →
      leaveCall u = .done (.ok ()) { u with calls := m.calls, scopes := m.scopes } := by
    intro u m i hu hc
    simp [leaveCall, hu, hc, Course.andThen]
  have hscopes : l.scopes = k.scopes := by
    have h := T.scopes hs
    rw [show s.scopes = c :: k.scopes from hks, show t.scopes = c :: l.scopes from hls] at h
    exact tail_eq_of_cons_eq h
  rw [hleave s k i hks hkc, hleave t l j hls hlc, hscopes]
  exact .ok (T.leave _ hs hkc hlc) ⟨rfl, Stacks.ext hko rfl rfl, Stacks.ext hlo hscopes.symm rfl⟩

section

variable (hk : Below k₀ k) {f : Frame → Eval α} {g : Frame → Eval β}

include hk

lemma beside_fail (e : Fault) : Beside T k₀ k l V p q (fail e : Eval α) (fail e : Eval β) :=
  fun _ _ hs hks _ => .error hs (hks ▸ hk)

lemma Constant.along {x : Eval α} (hx : Constant x) : Along T k₀ k l Eq x x := by
  obtain ⟨r, hr⟩ := hx
  intro s t hs hks hlt
  rw [hr, hr]
  cases r with
  | ok a => exact .ok hs ⟨rfl, hks, hlt⟩
  | error e => exact .error hs (hks ▸ hk)

lemma along_visit (hn : T.Same n m) : Along T k₀ k l Eq (visit n) (visit m) :=
  fun _ _ hs hks hlt => .visit hn hs (hks ▸ hk) fun _ _ _ hs' h h' => .ok hs' ⟨rfl, h.trans hks, h'.trans hlt⟩

lemma along_child (hn : T.Same n m) (i : Nat) : Along T k₀ k l T.Same (child n i) (child m i) := by
  have hc := T.child hn i
  unfold child
  generalize n.children[i]? = c, m.children[i]? = d at hc ⊢
  cases hc with
  | none => exact beside_fail hk _
  | some h => exact beside_pure h rfl rfl

lemma along_nameOf (hn : T.Same n m) : Along T k₀ k l Eq (nameOf n) (nameOf m) :=
  (along_child hk hn 0).bind fun _ _ hc => beside_pure (T.value hc).symm rfl rfl

lemma beside_visitChild (hn : T.Same n m) (i : Nat) {f : Value → Eval α} {g : Value → Eval β}
    (hf : ∀ v, Beside T k₀ k l V p q (f v) (g v)) :
    Beside T k₀ k l V p q (child n i >>= fun c => visit c >>= f) (child m i >>= fun c => visit c >>= g) :=
  (along_child hk hn i).bind fun _ _ hc => (along_visit hk hc).bind_eq hf

lemma along_lastChild (hn : T.Same n m) (i : Nat) : Along T k₀ k l Eq (child n i >>= visit) (child m i >>= visit) :=
  (along_child hk hn i).bind fun _ _ hc => along_visit hk hc

lemma along_operator (ho : k.operators.head? = l.operators.head?) : Along T k₀ k l Eq operator operator := by
  intro s t hs hks hlt
  subst hks hlt
  cases h : s.operators with
  | nil =>
    have h' : t.operators = [] := head?_eq_none_iff.mp (ho.symm.trans (by simp [Store.stacks, h]))
    simpa [operator, h, h', Course.andThen, fail] using .error hs hk
  | cons o os =>
    obtain ⟨os', h'⟩ : ∃ os', t.operators = o :: os' :=
      head?_eq_some_iff.mp (ho.symm.trans (by simp [Store.stacks, h]))
    simpa [operator, h, h', Course.andThen] using .ok hs ⟨rfl, rfl, rfl⟩

lemma along_currentCall :
    Along T k₀ k l (fun i j => k.calls.head? = some i ∧ l.calls.head? = some j) currentCall currentCall := by
  intro s t hs hks hlt
  subst hks hlt
  cases h : s.calls with
  | nil =>
    have h' : t.calls = [] := (T.calls hs).mp h
    simpa [currentCall, h, h', Course.andThen, fail] using .error hs hk
  | cons i is =>
    cases h' : t.calls with
    | nil => exact absurd ((T.calls hs).mpr h') (by simp [h])
    | cons j js =>
      rw [currentCall_apply (i := i) (by rw [h]; rfl), currentCall_apply (i := j) (by rw [h']; rfl)]
      exact .ok hs ⟨⟨by simp [Store.stacks, h], by simp [Store.stacks, h']⟩, rfl, rfl⟩

lemma beside_frameAt (hi : k.calls.head? = some i) (hj : l.calls.head? = some j)
    (hf : ∀ a b s t, a.Like T.Same b → (∀ name, t.callerBinding b name = s.callerBinding a name) → T.Like s t →
      s.stacks = k → t.stacks = l →
      (f a s).Beside T k₀ (fun a s' b t' => V a b ∧ s'.stacks = p a ∧ t'.stacks = q b) (g b t)) :
    Beside T k₀ k l V p q (frameAt i >>= f) (frameAt j >>= g) := by
  intro s t hs hks hlt
  subst hks hlt
  have hframe := T.frame hs hi hj
  simp only [frameAt, bind_apply, get_apply, Course.andThen]
  generalize s.frame? i = a, t.frame? j = b at hframe ⊢
  cases hframe with
  | none => exact .error hs hk
  | some h => exact hf _ _ s t h.1 h.2 hs rfl rfl

lemma beside_frame (hi : k.calls.head? = some i) (hj : l.calls.head? = some j)
    (hf : ∀ a b, a.Like T.Same b → Beside T k₀ k l V p q (f a) (g b)) :
    Beside T k₀ k l V p q (frameAt i >>= f) (frameAt j >>= g) :=
  beside_frameAt hk hi hj fun a b s t hab _ => hf a b hab s t

lemma along_binary (b : Binary) (hn : T.Same n m) : Along T k₀ k l Eq (binary b n) (binary b m) := by
  have hk' := hk.pushOperator (.binary b)
  refine (beside_pushOperator _).bind_eq fun _ => ?_
  refine beside_visitChild hk' hn 0 fun x => beside_visitChild hk' hn 1 fun y => ?_
  refine ((constant_checkSameType x y).along hk').bind_eq fun _ => ((constant_ofExcept _).along hk').bind_eq fun r => ?_
  exact (beside_popOperator _).bind_eq fun _ => along_pure r

lemma along_negation (hn : T.Same n m) : Along T k₀ k l Eq (negation n) (negation m) := by
  have hk' := hk.pushOperator .not
  refine (beside_pushOperator _).bind_eq fun _ => beside_visitChild hk' hn 0 fun x => ?_
  exact ((constant_checkBool x).along hk').bind_eq fun b => (beside_popOperator _).bind_eq fun _ => along_pure _

lemma along_operands (hn : T.Same n m) (ho : k.operators.head? = l.operators.head?) :
    Along T k₀ k l Eq (operands n) (operands m) := by
  have hrest : ∀ x, Along T k₀ k l Eq (combineRest n x) (combineRest m x) := by
    intro x
    refine beside_visitChild hk hn 1 fun y => ((constant_checkSameType x y).along hk).bind_eq fun _ => ?_
    exact (along_operator hk ho).bind_eq fun o => (constant_combined x y o).along hk
  refine beside_visitChild hk hn 0 fun x => (along_operator hk ho).bind_eq fun o => ?_
  cases o with
  | not => exact ((constant_checkBool x).along hk).bind_eq fun _ => along_pure _
  | binary b => exact hrest x
  | other _ => exact hrest x

omit hk in
lemma along_print (line : String) :
    Along T k₀ k l Eq (modify (·.print line) : Eval Unit) (modify (·.print line) : Eval Unit) :=
  along_modify (fun _ _ hs _ _ => T.print line hs) (fun _ => rfl) fun _ => rfl

lemma along_printNumber (hn : T.Same n m) : Along T k₀ k l Eq (printNumber n) (printNumber m) := by
  refine beside_visitChild hk hn 0 fun v => ?_
  cases v with
  | int x =>
    exact ((constant_ofExcept _).along hk).bind_eq fun line => (along_print line).bind_eq fun _ => along_pure _
  | _ => exact beside_fail hk _

lemma along_printBool (hn : T.Same n m) : Along T k₀ k l Eq (printBool n) (printBool m) := by
  refine beside_visitChild hk hn 0 fun v => ((constant_checkBool v).along hk).bind_eq fun b => ?_
  exact (along_print _).bind_eq fun _ => along_pure _

lemma along_conditional (hn : T.Same n m) : Along T k₀ k l Eq (conditional n) (conditional m) := by
  refine beside_visitChild hk hn 0 fun v => ?_
  split
  · exact along_lastChild hk hn 1
  · exact along_lastChild hk hn 2

lemma along_definition (hn : T.Same n m) : Along T k₀ k l Eq (definition n) (definition m) := by
  refine (along_child hk hn 0).bind fun c d hc => ?_
  rw [T.kind hc]
  cases c.kind with
  | reference =>
    refine beside_visitChild hk hn 1 fun v => (along_nameOf hk hc).bind_eq fun name => ?_
    exact (along_modify (fun _ _ hs _ _ => T.global name v hs) (fun _ => rfl) fun _ => rfl).bind_eq fun _ => along_pure _
  | functionName =>
    refine (along_nameOf hk hc).bind_eq fun name => (along_child hk hn 1).bind fun x y hx => ?_
    exact (along_modify (fun _ _ hs _ _ => T.define name hx hs) (fun _ => rfl) fun _ => rfl).bind_eq fun _ => along_pure _
  | _ => exact along_pure _

lemma along_definedBinding (name : Value) : Along T k₀ k l Eq (definedBinding name) (definedBinding name) := by
  refine (along_currentCall hk).bind fun i j hij => beside_frameAt hk hij.1 hij.2 fun f g s t hfg hcaller hs hks hlt => ?_
  have hb : g.binding? (t.callerBinding g name) name = f.binding? (s.callerBinding f name) name := by
    rw [hcaller, Frame.binding?, Frame.binding?, hfg.parameters, hfg.bindings]
  simp only [bind_apply, get_apply, Course.andThen, hb, T.globals hs]
  cases f.binding? (s.callerBinding f name) name with
  | some v => exact .ok hs ⟨rfl, hks, hlt⟩
  | none => exact (constant_lookup s.globals name).along hk s t hs hks hlt

lemma along_lookupIn (name : Value) (c : Scope) : Along T k₀ k l Eq (lookupIn name c) (lookupIn name c) := by
  cases c with
  | global =>
    intro s t hs hks hlt
    simp only [lookupIn, bind_apply, get_apply, Course.andThen, T.globals hs]
    exact (constant_lookup s.globals name).along hk s t hs hks hlt
  | anonymous =>
    refine (along_currentCall hk).bind fun i j hij => beside_frame hk hij.1 hij.2 fun f g hfg => ?_
    rw [hfg.bindings]
    exact (constant_lookup _ _).along hk
  | defined => exact along_definedBinding hk name
  | other _ => exact along_pure _

lemma along_reference (hn : T.Same n m) : Along T k₀ k l Eq (reference n) (reference m) := by
  intro s t hs hks hlt
  simp only [reference, bind_apply, get_apply, Course.andThen, T.scopes hs]
  exact ((along_nameOf hk hn).bind_eq fun name => along_lookupIn hk name (s.scopes.head?.getD .global)) s t hs hks hlt

omit hk in
lemma along_update (hi : k.calls.head? = some i) (hj : l.calls.head? = some j) (p a : List Value → List Value)
    (b : Registry Key Value → Registry Key Value) :
    Along T k₀ k l Eq (modify (·.modifyFrame i (·.update p a b)) : Eval Unit)
      (modify (·.modifyFrame j (·.update p a b)) : Eval Unit) :=
  along_modify (fun _ _ hs hks hlt => T.update p a b hs (by subst hks; exact hi) (by subst hlt; exact hj)) (fun _ => rfl)
    fun _ => rfl

lemma along_bindFrom (hi : k.calls.head? = some i) (hj : l.calls.head? = some j) (ps : List Value) (x : Nat) :
    Along T k₀ k l Eq (bindFrom i ps x) (bindFrom j ps x) := by
  induction ps generalizing x with
  | nil => exact along_pure _
  | cons p ps ih =>
    refine beside_frame hk hi hj fun f g hfg => ?_
    rw [hfg.arguments]
    cases f.arguments[x]? with
    | none => exact beside_fail hk _
    | some v => exact (along_update hi hj id id (·.insert ⟨p⟩ v)).bind_eq fun _ => ih (x + 1)

lemma along_functionOf (hi : k.calls.head? = some i) (hj : l.calls.head? = some j) :
    Along T k₀ k l T.Same (functionOf i) (functionOf j) := by
  refine beside_frame hk hi hj fun f g hfg => ?_
  have hfun := hfg.function
  generalize f.function = c, g.function = d at hfun ⊢
  cases hfun with
  | none => exact beside_fail hk _
  | some h => exact beside_pure h rfl rfl

lemma beside_openAnonymous (hn : T.Same n m) :
    Beside T k₀ k l (fun a b => T.Same a.2 b.2) (fun a => (k.pushScope .anonymous).pushCall a.1)
      (fun b => (l.pushScope .anonymous).pushCall b.1) (openAnonymous n) (openAnonymous m) := by
  have hk' := hk.pushScope .anonymous
  refine (beside_pushScope _).bind_eq fun _ => (along_child hk' hn 0).bind fun c d hc s t hs hks hlt => ?_
  refine .visit hc (T.opened hc hs) (Below.trans hk' ?_) fun _ _ _ hs' h h' => .ok hs' ⟨hc, h.trans ?_, h'.trans ?_⟩
  · rw [← hks]
    exact (Below.refl _).pushCall _
  · rw [← hks]
    rfl
  · rw [← hlt]
    rfl

lemma beside_enterDefined (name : Value) :
    Beside T k₀ k l (fun _ _ => True) (fun i => k.pushCall i) (fun j => l.pushCall j) (enterDefined name)
      (enterDefined name) := by
  intro s t hs hks hlt
  have hstacks : ∀ {s : Store} {i u}, Entered s name i u → u.stacks = s.stacks.pushCall i := by
    intro s i u he
    cases he <;> rfl
  obtain ⟨i, u, he⟩ | ⟨hcurrent, hfunction⟩ := entered_or_missing s name
  · obtain ⟨j, w, he', huw⟩ := T.entered hs he
    rw [enterDefined_apply he, enterDefined_apply he']
    exact .ok huw ⟨trivial, hks ▸ hstacks he, hlt ▸ hstacks he'⟩
  · obtain ⟨hcurrent', hfunction'⟩ := T.missing hs hcurrent hfunction
    obtain ⟨e, hmissing⟩ := missing_apply (α := Nat) name
    rw [enterDefined_missing hcurrent hfunction, enterDefined_missing hcurrent' hfunction', hmissing, hmissing]
    exact .error hs (hks ▸ hk)

lemma beside_openDefined (hn : T.Same n m) :
    Beside T k₀ k l (fun a b => a.1 = b.1 ∧ T.Same a.2.2 b.2.2) (fun a => (k.pushScope .defined).pushCall a.2.1)
      (fun b => (l.pushScope .defined).pushCall b.2.1) (openDefined n) (openDefined m) := by
  have hk' := hk.pushScope .defined
  refine (beside_pushScope _).bind_eq fun _ => (along_child hk' hn 0).bind fun c d hc => ?_
  refine (along_nameOf hk' hc).bind_eq fun name => (beside_enterDefined hk' name).bind fun i j _ => ?_
  refine (along_functionOf (hk'.pushCall i) rfl rfl).bind fun x y hx => ?_
  exact (along_visit (hk'.pushCall i) hx).bind_eq fun _ => beside_pure (And.intro rfl hx) rfl rfl

lemma along_passArguments (hn : T.Same n m) {c d : Node} (hc : T.Same c d) (hi : k.calls.head? = some i)
    (hj : l.calls.head? = some j) : Along T k₀ k l T.Same (passArguments n i c) (passArguments m j d) := by
  have hbind : Along T k₀ k l Eq (Eval.bind i) (Eval.bind j) := by
    refine beside_frame hk hi hj fun f g hfg => ?_
    rw [hfg.parameters]
    exact along_bindFrom hk hi hj f.parameters 0
  exact beside_visitChild hk hn 1 fun _ => hbind.bind_eq fun _ => along_child hk hc 1

lemma along_answer (memoize : Bool) (hT : T.Remembers) (name : Value) {c d : Node} (hc : T.Same c d)
    (hi : k.calls.head? = some i) (hj : l.calls.head? = some j) :
    Along T k₀ k l Eq (answer memoize name i c) (answer memoize name j d) := by
  have hcall : Along T k₀ k l Eq (callOf name i) (callOf name j) :=
    beside_frame hk hi hj fun f g hfg => beside_pure (by rw [hfg.arguments]) rfl rfl
  refine hcall.bind_eq fun call s t hs hks hlt => ?_
  simp only [bind_apply, get_apply, Course.andThen, hT.memo hs]
  cases if memoize then s.memo.get? call else none with
  | some v => exact .ok hs ⟨rfl, hks, hlt⟩
  | none =>
    refine ((along_visit hk hc).bind_eq fun v => ?_) s t hs hks hlt
    refine Beside.bind_eq (hcall.bind_eq fun call => ?_) fun _ => along_pure v
    exact along_modify (fun _ _ hs _ _ => hT.remember call v hs) (fun _ => rfl) fun _ => rfl

lemma along_callAnonymous (hn : T.Same n m) : Along T k₀ k l Eq (callAnonymous n) (callAnonymous m) := by
  refine (beside_openAnonymous hk hn).bind fun a b hab => ?_
  have hk' := (hk.pushScope .anonymous).pushCall a.1
  refine (along_passArguments hk' hn hab rfl rfl).bind fun c d hc => (along_visit hk' hc).bind_eq fun r => ?_
  exact (beside_leaveCall .anonymous a.1 b.1).bind_eq fun _ => along_pure r

lemma beside_prepare (hn : T.Same n m) :
    Beside T k₀ k l (fun a b => a.1 = b.1 ∧ T.Same a.2.2 b.2.2) (fun a => (k.pushScope .defined).pushCall a.2.1)
      (fun b => (l.pushScope .defined).pushCall b.2.1) (prepare n) (prepare m) := by
  refine (beside_openDefined hk hn).bind fun a b hab => ?_
  refine (along_passArguments ((hk.pushScope .defined).pushCall a.2.1) hn hab.2 rfl rfl).bind fun c d hc => ?_
  exact beside_pure ⟨hab.1, hc⟩ rfl rfl

lemma along_callDefined (memoize : Bool) (hT : T.Remembers) (hn : T.Same n m) :
    Along T k₀ k l Eq (callDefined memoize n) (callDefined memoize m) := by
  refine (beside_prepare hk hn).bind fun a b hab => ?_
  obtain ⟨name, i, c⟩ := a
  obtain ⟨_, j, d⟩ := b
  obtain ⟨rfl, hc⟩ := hab
  refine (along_answer ((hk.pushScope .defined).pushCall i) memoize hT name hc rfl rfl).bind_eq fun r => ?_
  exact (beside_leaveCall .defined i j).bind_eq fun _ => along_pure r

lemma along_addArgument (hn : T.Same n m) : Along T k₀ k l Eq (addArgument n) (addArgument m) := by
  unfold addArgument
  rw [T.kind hn]
  split
  · refine (along_currentCall hk).bind fun i j hij => beside_visitChild hk hn 0 fun v => ?_
    exact along_update hij.1 hij.2 id (· ++ [v]) id
  · exact along_pure _

lemma along_addParameter (hn : T.Same n m) : Along T k₀ k l Eq (addParameter n) (addParameter m) := by
  unfold addParameter
  rw [T.kind hn]
  split
  · refine (along_currentCall hk).bind fun i j hij => (along_nameOf hk hn).bind_eq fun name => ?_
    exact along_update hij.1 hij.2 (· ++ [name]) id id
  · exact along_pure _

lemma along_visitRest (kind : Kind) (hn : T.Same n m) : Along T k₀ k l Eq (visitRest kind n) (visitRest kind m) := by
  unfold visitRest
  rw [T.kind hn]
  split
  · exact (along_visit hk hn).bind_eq fun _ => along_pure _
  · exact along_pure _

lemma along_step (memoize memoize' : Bool) (hn : T.Same n m)
    (ho : n.kind = .operands → k.operators.head? = l.operators.head?)
    (hm : n.kind = .callDefined → memoize' = memoize ∧ T.Remembers) :
    Along T k₀ k l Eq (step memoize n) (step memoize' m) := by
  unfold step
  rw [T.kind hn, T.value hn]
  cases hkind : n.kind with
  | statements => exact beside_visitChild hk hn 0 fun _ => beside_visitChild hk hn 1 fun _ => along_pure _
  | binary b => exact along_binary hk b hn
  | negation => exact along_negation hk hn
  | printNumber => exact along_printNumber hk hn
  | printBool => exact along_printBool hk hn
  | operands => exact along_operands hk hn (ho hkind)
  | conditional => exact along_conditional hk hn
  | test => exact beside_visitChild hk hn 0 fun v => ((constant_checkBool v).along hk).bind_eq fun _ => along_pure _
  | consequence | alternative | body => exact along_lastChild hk hn 0
  | definition => exact along_definition hk hn
  | reference => exact along_reference hk hn
  | callAnonymous => exact along_callAnonymous hk hn
  | callDefined =>
    obtain ⟨rfl, hT⟩ := hm hkind
    exact along_callDefined hk _ hT hn
  | function | parameters => exact beside_visitChild hk hn 0 fun _ => along_pure _
  | arguments =>
    refine (along_child hk hn 0).bind fun c d hc => (along_addArgument hk hc).bind_eq fun _ => ?_
    exact (along_child hk hn 1).bind fun x y hx => (along_visitRest hk _ hx).bind_eq fun _ => along_pure _
  | parameterList =>
    refine (along_child hk hn 0).bind fun c d hc => (along_addParameter hk hc).bind_eq fun _ => ?_
    exact (along_child hk hn 1).bind fun x y hx => (along_visitRest hk _ hx).bind_eq fun _ => along_pure _
  | number | bool | identifier | functionName | argument | null | other _ => exact along_pure _

end

end Eval

theorem Likeness.evaluate (T : Likeness) (hT : T.Remembers) (memoize : Bool) {P : Node × Store → Prop}
    (henters : ∀ {c c'}, Enters memoize c c' → P c → P c')
    (ho : ∀ {n s t}, P (n, s) → n.kind = .operands → T.Like s t → s.operators.head? = t.operators.head?) (d : Nat)
    {n m : Node} {s t : Store} (hP : P (n, s)) (hn : T.Same n m) (hs : T.Like s t) :
    Course.Follows T (fun m t r t' => Lisp.evaluate memoize d m t = (r, t')) m s t (Lisp.evaluate memoize d n s).1
      (Lisp.evaluate memoize d n s).2 := by
  induction d generalizing n m s t with
  | zero => exact ⟨t, rfl, hs, Below.refl _, fun v hv => by cases hv⟩
  | succ d ih =>
    rcases he : Lisp.evaluate memoize (d + 1) n s with ⟨r, s'⟩
    have hstep := Eval.along_step (Below.refl s.stacks) memoize memoize hn
      (fun hk => show s.stacks.operators.head? = t.stacks.operators.head? from ho hP hk hs) (fun _ => ⟨rfl, hT⟩) s t hs
      rfl rfl
    obtain ⟨a, _, t', rfl, hr, hs', rfl, hk, hl⟩ | ⟨e, t', rfl, hr, hs', hk⟩ :=
      hstep.runs (G := fun n s r t => Lisp.evaluate memoize d n s = (r, t)) (fun x y u w r u' hx _ hxy huw he => by
        have hfollows := ih (henters (.of_evaluate hx) hP) hxy huw
        rwa [he] at hfollows) (Course.runs_iff_run.mpr he)
    · exact ⟨t', Course.runs_iff_run.mp hr, hs', hk, fun _ _ => hl⟩
    · exact ⟨t', Course.runs_iff_run.mp hr, hs', hk, fun v hv => by cases hv⟩

end LispKit.Lisp
