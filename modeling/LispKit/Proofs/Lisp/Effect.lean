import LispKit.Proofs.Lisp.Course

/-! What the parts of an evaluation do to the store: which only read it, and what the nodes that call no
function may change. -/

namespace LispKit.Lisp

open List

namespace Course

variable {α β : Type} {G : Meaning} {N : Node → Prop} {K : Store → Store → Prop} {c : Course α}

def Keeps (N : Node → Prop) (K : Store → Store → Prop) (s₀ : Store) : Course α → Prop
  | done _ s => K s₀ s
  | visit n s next => N n ∧ K s₀ s ∧ ∀ v s', K s₀ s' → (next v s').Keeps N K s₀

lemma Keeps.andThen {f : α → Store → Course β} {s₀ : Store} (h : c.Keeps N K s₀)
    (hf : ∀ a s, K s₀ s → (f a s).Keeps N K s₀) : (c.andThen f).Keeps N K s₀ := by
  induction c with
  | done r s =>
    cases r with
    | ok a => exact hf a s h
    | error e => exact h
  | visit n s next ih => exact ⟨h.1, h.2.1, fun v s' hs => ih v s' (h.2.2 v s' hs)⟩

lemma Keeps.runs {s₀ t : Store} {a : α} (h : c.Keeps N K s₀)
    (hG : ∀ n s v s', N n → K s₀ s → G n s (.ok v) s' → K s₀ s') (hr : c.Runs G (.ok a) t) : K s₀ t := by
  induction c with
  | done r s =>
    obtain ⟨_, rfl⟩ := runs_done.mp hr
    exact h
  | visit n s next ih =>
    obtain ⟨v, s', hg, hr⟩ | ⟨e, he, _⟩ := runs_visit.mp hr
    · exact ih v s' (h.2.2 v s' (hG n s v s' h.1 h.2.1 hg)) hr
    · cases he

lemma Keeps.visits {s₀ t : Store} {m : Node} {P : Node → Store → Prop} (h : c.Keeps N K s₀)
    (hG : ∀ n s v s', N n → K s₀ s → P n s → G n s (.ok v) s' → K s₀ s') (hv : c.Visits G P m t) : N m ∧ K s₀ t := by
  induction hv with
  | here => exact ⟨h.1, h.2.1⟩
  | later hp hg _ ih => exact ih (h.2.2 _ _ (hG _ _ _ _ h.1 h.2.1 hp hg))

end Course

namespace Eval

variable {α β : Type} {N : Node → Prop} {K : Store → Store → Prop} {x : Eval α} {f : α → Eval β}

@[simp] lemma bind_apply (x : Eval α) (f : α → Eval β) (s : Store) :
    (x >>= f) s = (x s).andThen f := rfl

@[simp] lemma pure_apply (a : α) (s : Store) : (pure a : Eval α) s = .done (.ok a) s := rfl

@[simp] lemma get_apply (s : Store) : (get : Eval Store) s = .done (.ok s) s := rfl

@[simp] lemma set_apply (s t : Store) : (set t : Eval Unit) s = .done (.ok ()) t := rfl

@[simp] lemma modify_apply (f : Store → Store) (s : Store) :
    (modify f : Eval Unit) s = .done (.ok ()) (f s) := rfl

def Constant (x : Eval α) : Prop :=
  ∃ r, ∀ s, x s = .done r s

lemma constant_pure (a : α) : Constant (pure a : Eval α) := ⟨_, fun _ => rfl⟩

lemma constant_fail (f : Fault) : Constant (fail f : Eval α) := ⟨_, fun _ => rfl⟩

lemma Constant.bind (hx : Constant x) (hf : ∀ a, Constant (f a)) : Constant (x >>= f) := by
  obtain ⟨r, hr⟩ := hx
  cases r with
  | ok a =>
    obtain ⟨r', hr'⟩ := hf a
    exact ⟨r', fun s => by rw [bind_apply, hr]; exact hr' s⟩
  | error e => exact ⟨.error e, fun s => by rw [bind_apply, hr]; rfl⟩

lemma constant_ofExcept (r : Except Fault α) : Constant (ofExcept r) := by
  cases r with
  | ok a => exact constant_pure a
  | error e => exact constant_fail e

lemma constant_child (n : Node) (i : Nat) : Constant (child n i) := by
  unfold child
  split
  · exact constant_pure _
  · exact constant_fail _

lemma constant_nameOf (n : Node) : Constant (nameOf n) :=
  (constant_child n 0).bind fun _ => constant_pure _

lemma missing_apply (name : Value) : ∃ e, ∀ s, (missing name : Eval α) s = .done (.error e) s := by
  unfold missing
  cases name.write with
  | ok key => exact ⟨.missingKey key, fun _ => rfl⟩
  | error e => exact ⟨e, fun _ => rfl⟩

lemma constant_missing (name : Value) : Constant (missing name : Eval α) := by
  obtain ⟨e, he⟩ := missing_apply (α := α) name
  exact ⟨.error e, he⟩

lemma constant_lookup (r : Registry Key Value) (name : Value) : Constant (lookup r name) := by
  unfold lookup
  split
  · exact constant_pure _
  · exact constant_missing _

lemma constant_checkSameType (x y : Value) : Constant (checkSameType x y) := by
  unfold checkSameType
  split
  · exact constant_pure _
  · exact constant_fail _

lemma constant_checkBool (v : Value) : Constant (checkBool v) := by
  cases v with
  | bool b => exact constant_pure b
  | _ => exact constant_fail _

lemma constant_combined (x y : Value) (o : Operator) : Constant (combined x y o) := by
  cases o with
  | binary b => exact constant_ofExcept _
  | not => exact (constant_checkBool x).bind fun _ => constant_pure _
  | other _ => exact constant_pure _

def Reads (x : Eval α) : Prop :=
  ∀ s, ∃ r, x s = .done r s

lemma Constant.reads (hx : Constant x) : Reads x := by
  obtain ⟨r, hr⟩ := hx
  exact fun s => ⟨r, hr s⟩

lemma reads_get : Reads (get : Eval Store) := fun _ => ⟨_, rfl⟩

lemma Reads.bind (hx : Reads x) (hf : ∀ a, Reads (f a)) : Reads (x >>= f) := by
  intro s
  obtain ⟨r, hr⟩ := hx s
  cases r with
  | ok a =>
    obtain ⟨r', hr'⟩ := hf a s
    exact ⟨r', by rw [bind_apply, hr]; exact hr'⟩
  | error e => exact ⟨.error e, by rw [bind_apply, hr]; rfl⟩

lemma reads_operator : Reads operator := by
  refine reads_get.bind fun s => ?_
  cases s.operators with
  | nil => exact (constant_fail _).reads
  | cons o _ => exact (constant_pure o).reads

lemma reads_currentCall : Reads currentCall := by
  refine reads_get.bind fun s => ?_
  cases s.calls with
  | nil => exact (constant_fail _).reads
  | cons i _ => exact (constant_pure i).reads

lemma reads_frameAt (i : Nat) : Reads (frameAt i) := by
  refine reads_get.bind fun s => ?_
  cases s.frame? i with
  | none => exact (constant_fail _).reads
  | some f => exact (constant_pure f).reads

lemma reads_definedBinding (name : Value) : Reads (definedBinding name) := by
  refine reads_currentCall.bind fun i => (reads_frameAt i).bind fun f => reads_get.bind fun s => ?_
  split
  · exact (constant_pure _).reads
  · exact (constant_lookup _ _).reads

lemma reads_lookupIn (name : Value) (scope : Scope) : Reads (lookupIn name scope) := by
  cases scope with
  | global => exact reads_get.bind fun s => (constant_lookup _ _).reads
  | anonymous =>
    exact reads_currentCall.bind fun i => (reads_frameAt i).bind fun f => (constant_lookup _ _).reads
  | defined => exact reads_definedBinding name
  | other _ => exact (constant_pure _).reads

lemma reads_reference (n : Node) : Reads (reference n) :=
  reads_get.bind fun _ => (constant_nameOf n).reads.bind fun name => reads_lookupIn name _

lemma reads_functionOf (i : Nat) : Reads (functionOf i) := by
  refine (reads_frameAt i).bind fun f => ?_
  cases f.function with
  | none => exact (constant_fail _).reads
  | some n => exact (constant_pure n).reads

lemma reads_callOf (name : Value) (i : Nat) : Reads (callOf name i) :=
  (reads_frameAt i).bind fun _ => (constant_pure _).reads

def Keeps (N : Node → Prop) (K : Store → Store → Prop) (x : Eval α) : Prop :=
  ∀ s₀ s, K s₀ s → (x s).Keeps N K s₀

lemma Reads.keeps (hx : Reads x) : Keeps N K x := by
  intro s₀ s hs
  obtain ⟨r, hr⟩ := hx s
  rw [hr]
  exact hs

lemma Keeps.bind (hx : Keeps N K x) (hf : ∀ a, Keeps N K (f a)) : Keeps N K (x >>= f) :=
  fun s₀ s hs => (hx s₀ s hs).andThen fun a s' hs' => hf a s₀ s' hs'

lemma keeps_visit {n : Node} (hn : N n) : Keeps N K (visit n) :=
  fun _ _ hs => ⟨hn, hs, fun _ _ hs' => hs'⟩

lemma keeps_child (n : Node) (i : Nat) {f : Node → Eval β} (hf : ∀ c, n.children[i]? = some c → Keeps N K (f c)) :
    Keeps N K (child n i >>= f) := by
  intro s₀ s hs
  unfold child
  cases hc : n.children[i]? with
  | none => exact hs
  | some c => exact hf c hc s₀ s hs

lemma keeps_modify {f : Store → Store} (htrans : ∀ s t u, K s t → K t u → K s u)
    (hf : ∀ s, K s (f s)) : Keeps N K (modify f : Eval Unit) :=
  fun _ s hs => htrans _ _ _ hs (hf s)

end Eval

inductive Plain (n : Node) : Store → Store → Prop
  | operators (s : Store) (os : List Operator) : Plain n s { s with operators := os }
  | print (s : Store) (line : String) : n.kind = .printNumber ∨ n.kind = .printBool →
      Plain n s (s.print line)
  | global (s : Store) (v : Value) {target name : Node} : n.kind = .definition →
      n.children[0]? = some target → target.kind = .reference → target.children[0]? = some name →
      Plain n s { s with globals := s.globals.insert ⟨name.value⟩ v }
  | function (s : Store) {target name tree : Node} : n.kind = .definition →
      n.children[0]? = some target → target.kind = .functionName → target.children[0]? = some name →
      n.children[1]? = some tree →
      Plain n s { s with
        frames := s.frames.push { name := name.value, function := some tree }
        functions := s.functions.insert ⟨name.value⟩ s.frames.size }
  | argument (s : Store) (v : Value) {i : Nat} : n.kind = .arguments → s.calls.head? = some i →
      Plain n s (s.modifyFrame i fun f => { f with arguments := f.arguments ++ [v] })
  | parameter (s : Store) (name : Value) {i : Nat} : n.kind = .parameterList → s.calls.head? = some i →
      Plain n s (s.modifyFrame i fun f => { f with parameters := f.parameters ++ [name] })

def Node.Part (n m : Node) : Prop :=
  m ∈ n.children ∨ n.kind = .arguments ∧ ∃ c ∈ n.children, c.kind = .argument ∧ m ∈ c.children

def Node.IsCall (n : Node) : Prop :=
  n.kind = .callAnonymous ∨ n.kind = .callDefined

namespace Eval

variable {K : Store → Store → Prop} {n : Node} {memoize : Bool}

lemma keeps_visitChild (i : Nat) {f : Value → Eval Value} (hf : ∀ v, Keeps n.Part K (f v)) :
    Keeps n.Part K (child n i >>= fun p => visit p >>= f) :=
  keeps_child n i fun _ hp => (keeps_visit (.inl (mem_of_getElem? hp))).bind hf

lemma keeps_lastChild (i : Nat) : Keeps n.Part K (child n i >>= visit) :=
  keeps_child n i fun _ hp => keeps_visit (.inl (mem_of_getElem? hp))

section

variable (htrans : ∀ s t u, K s t → K t u → K s u) (hplain : ∀ s t, Plain n s t → K s t)

include htrans hplain

lemma keeps_popOperator : Keeps n.Part K popOperator := by
  refine reads_get.keeps.bind fun s => ?_
  cases s.operators with
  | nil => exact (constant_fail _).reads.keeps
  | cons _ rest => exact keeps_modify htrans fun s => hplain _ _ (.operators s rest)

lemma keeps_binary (b : Binary) : Keeps n.Part K (binary b n) := by
  refine (keeps_modify htrans fun s => hplain _ _ (.operators s _)).bind fun _ => ?_
  refine keeps_visitChild 0 fun x => keeps_visitChild 1 fun y => ?_
  refine (constant_checkSameType x y).reads.keeps.bind fun _ => (constant_ofExcept _).reads.keeps.bind fun r => ?_
  exact (keeps_popOperator htrans hplain).bind fun _ => (constant_pure r).reads.keeps

lemma keeps_negation : Keeps n.Part K (negation n) := by
  refine (keeps_modify htrans fun s => hplain _ _ (.operators s _)).bind fun _ => ?_
  refine keeps_visitChild 0 fun x => ?_
  refine (constant_checkBool x).reads.keeps.bind fun c => ?_
  exact (keeps_popOperator htrans hplain).bind fun _ => (constant_pure _).reads.keeps

omit htrans hplain in
lemma keeps_combineRest (x : Value) : Keeps n.Part K (combineRest n x) := by
  refine keeps_visitChild 1 fun y => ?_
  refine (constant_checkSameType x y).reads.keeps.bind fun _ => reads_operator.keeps.bind fun o => ?_
  exact (constant_combined x y o).reads.keeps

omit htrans hplain in
lemma keeps_operands : Keeps n.Part K (operands n) := by
  refine keeps_visitChild 0 fun x => ?_
  refine reads_operator.keeps.bind fun o => ?_
  cases o with
  | not => exact ((constant_checkBool x).bind fun _ => constant_pure _).reads.keeps
  | binary b => exact keeps_combineRest x
  | other _ => exact keeps_combineRest x

lemma keeps_printNumber (hn : n.kind = .printNumber) : Keeps n.Part K (printNumber n) := by
  refine keeps_visitChild 0 fun v => ?_
  cases v with
  | int m =>
    refine (constant_ofExcept _).reads.keeps.bind fun line => ?_
    exact (keeps_modify htrans fun s => hplain _ _ (.print s line (.inl hn))).bind fun _ =>
      (constant_pure _).reads.keeps
  | _ => exact (constant_fail _).reads.keeps

lemma keeps_printBool (hn : n.kind = .printBool) : Keeps n.Part K (printBool n) := by
  refine keeps_visitChild 0 fun v => ?_
  refine (constant_checkBool v).reads.keeps.bind fun b => ?_
  exact (keeps_modify htrans fun s => hplain _ _ (.print s _ (.inr hn))).bind fun _ =>
    (constant_pure _).reads.keeps

lemma keeps_definition (hn : n.kind = .definition) : Keeps n.Part K (definition n) := by
  refine keeps_child n 0 fun target htarget => ?_
  split
  · rename_i hk
    refine keeps_visitChild 1 fun v => ?_
    intro s₀ s hs
    unfold nameOf child
    cases hname : target.children[0]? with
    | none => exact hs
    | some name => exact htrans _ _ _ hs (hplain _ _ (.global s v hn htarget hk hname))
  · rename_i hk
    intro s₀ s hs
    unfold nameOf child
    cases hname : target.children[0]? with
    | none => exact hs
    | some name =>
      cases htree : n.children[1]? with
      | none => exact hs
      | some tree => exact htrans _ _ _ hs (hplain _ _ (.function s hn htarget hk hname htree))
  · exact (constant_pure _).reads.keeps

variable (hcalls : ∀ s t, K s t → t.calls = s.calls)

include hcalls

-- The place is read before the argument is evaluated and used after it, so the calls have to be kept.
lemma keeps_addArgument (hn : n.kind = .arguments) {first : Node} (hfirst : first ∈ n.children) :
    Keeps n.Part K (addArgument first) := by
  unfold addArgument
  split
  · rename_i hk
    intro s₀ s hs
    cases hc : s.calls with
    | nil => simpa [currentCall, hc, fail, Course.andThen, Course.Keeps] using hs
    | cons i rest =>
      have hplace : currentCall s = .done (.ok i) s := by simp [currentCall, hc, Course.andThen]
      rw [bind_apply, hplace]
      unfold child
      cases hp : first.children[0]? with
      | none => exact hs
      | some p =>
        refine ⟨.inr ⟨hn, first, hfirst, hk, mem_of_getElem? hp⟩, hs, fun v u hu => ?_⟩
        refine htrans _ _ _ hu (hplain _ _ (.argument u v hn ?_))
        rw [hcalls _ _ hu, ← hcalls _ _ hs, hc, head?_cons]
  · exact (constant_pure _).reads.keeps

lemma keeps_addParameter (hn : n.kind = .parameterList) (first : Node) : Keeps n.Part K (addParameter first) := by
  unfold addParameter
  split
  · intro s₀ s hs
    cases hc : s.calls with
    | nil => simpa [currentCall, hc, fail, Course.andThen, Course.Keeps] using hs
    | cons i rest =>
      have hplace : currentCall s = .done (.ok i) s := by simp [currentCall, hc, Course.andThen]
      rw [bind_apply, hplace]
      refine ((constant_nameOf first).reads.keeps s₀ s hs).andThen fun name t ht => ?_
      refine htrans _ _ _ ht (hplain _ _ (.parameter t name hn ?_))
      rw [hcalls _ _ ht, ← hcalls _ _ hs, hc, head?_cons]
  · exact (constant_pure _).reads.keeps

omit htrans hplain hcalls in
lemma keeps_visitRest (kind : Kind) {rest : Node} (hrest : rest ∈ n.children) :
    Keeps n.Part K (visitRest kind rest) := by
  unfold visitRest
  split
  · exact (keeps_visit (.inl hrest)).bind fun _ => (constant_pure _).reads.keeps
  · exact (constant_pure _).reads.keeps

lemma keeps_step (hn : ¬ n.IsCall) : Keeps n.Part K (step memoize n) := by
  unfold step
  split
  · exact keeps_visitChild 0 fun _ => keeps_visitChild 1 fun _ => (constant_pure _).reads.keeps
  · exact keeps_binary htrans hplain _
  · exact keeps_negation htrans hplain
  · exact keeps_printNumber htrans hplain ‹_›
  · exact keeps_printBool htrans hplain ‹_›
  · exact (constant_pure _).reads.keeps
  · exact (constant_pure _).reads.keeps
  · exact keeps_operands
  · refine keeps_visitChild 0 fun v => ?_
    split
    · exact keeps_lastChild 1
    · exact keeps_lastChild 2
  · exact keeps_visitChild 0 fun v => (constant_checkBool v).reads.keeps.bind fun _ => (constant_pure _).reads.keeps
  · exact keeps_lastChild 0
  · exact keeps_lastChild 0
  · exact keeps_lastChild 0
  · exact keeps_definition htrans hplain ‹_›
  · exact (reads_reference n).keeps
  · exact (hn (.inl ‹_›)).elim
  · exact (hn (.inr ‹_›)).elim
  · exact keeps_visitChild 0 fun _ => (constant_pure _).reads.keeps
  · exact keeps_visitChild 0 fun _ => (constant_pure _).reads.keeps
  · refine keeps_child n 0 fun first hfirst => ?_
    refine (keeps_addArgument htrans hplain hcalls ‹_› (mem_of_getElem? hfirst)).bind fun _ => ?_
    exact keeps_child n 1 fun rest hrest => (keeps_visitRest _ (mem_of_getElem? hrest)).bind fun _ =>
      (constant_pure _).reads.keeps
  · refine (constant_child n 0).reads.keeps.bind fun first => ?_
    refine (keeps_addParameter htrans hplain hcalls ‹_› first).bind fun _ => ?_
    exact keeps_child n 1 fun rest hrest => (keeps_visitRest _ (mem_of_getElem? hrest)).bind fun _ =>
      (constant_pure _).reads.keeps
  all_goals exact (constant_pure _).reads.keeps

end

end Eval

end LispKit.Lisp
