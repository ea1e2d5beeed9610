import LispKit.Lisp.Symbol
import LispKit.Proofs.Lisp.Invariant
import LispKit.Proofs.Lisp.Rules

/-! The trees of the grammar, and what evaluating them can reach. -/

namespace LispKit.Lisp

def Binary.IsVariadic (b : Binary) : Prop :=
  b ∈ [plus, times, equal, and, or]

instance (b : Binary) : Decidable b.IsVariadic :=
  inferInstanceAs (Decidable (b ∈ _))

inductive Tree : Symbol → Node → Prop
  | identifier {w id} : Tree .identifier (.mk .identifier (.text w) id [])
  | reference {v id x} : Tree .identifier x → Tree .reference (.mk .reference v id [x])
  | functionName {v id x} : Tree .identifier x → Tree .functionName (.mk .functionName v id [x])
  | number {m id} : Tree .expression (.mk .number (.int m) id [])
  | bool {b id} : Tree .expression (.mk .bool (.bool b) id [])
  | ofReference {n} : Tree .reference n → Tree .expression n
  | binary {b v id x y} : Tree .expression x → Tree .expression y →
      Tree .expression (.mk (.binary b) v id [x, y])
  | variadic {b v id x y} : b.IsVariadic → Tree .expression x → Tree .expressions y →
      Tree .expression (.mk (.binary b) v id [x, y])
  | negation {v id x} : Tree .expression x → Tree .expression (.mk .negation v id [x])
  | ofFunction {n} : Tree .function n → Tree .expression n
  | callAnonymous {v id f a} : Tree .function f → Tree .arguments a →
      Tree .expression (.mk .callAnonymous v id [f, a])
  | callDefined {v id f a} : Tree .functionName f → Tree .arguments a →
      Tree .expression (.mk .callDefined v id [f, a])
  | conditional {v id x y z} : Tree .test x → Tree .consequence y → Tree .alternative z →
      Tree .expression (.mk .conditional v id [x, y, z])
  | ofExpression {n} : Tree .expression n → Tree .expressions n
  | operands {v id x y} : Tree .expression x → Tree .expressions y →
      Tree .expressions (.mk .operands v id [x, y])
  | noReferences {v id} : Tree .references (.mk .null v id [])
  | references {v id x y} : Tree .reference x → Tree .references y →
      Tree .references (.mk .parameterList v id [x, y])
  | parameters {v id x} : Tree .references x → Tree .parameters (.mk .parameters v id [x])
  | body {v id x} : Tree .expression x → Tree .body (.mk .body v id [x])
  | function {v id x y} : Tree .parameters x → Tree .body y → Tree .function (.mk .function v id [x, y])
  | argument {v id x} : Tree .expression x → Tree .argument (.mk .argument v id [x])
  | noArguments {v id} : Tree .arguments (.mk .null v id [])
  | arguments {v id x y} : Tree .argument x → Tree .arguments y →
      Tree .arguments (.mk .arguments v id [x, y])
  | test {v id x} : Tree .expression x → Tree .test (.mk .test v id [x])
  | consequence {v id x} : Tree .expression x → Tree .consequence (.mk .consequence v id [x])
  | alternative {v id x} : Tree .expression x → Tree .alternative (.mk .alternative v id [x])
  | statement {n} : Tree .expression n → Tree .statement n
  | printNumber {v id x} : Tree .expression x → Tree .statement (.mk .printNumber v id [x])
  | printBool {v id x} : Tree .expression x → Tree .statement (.mk .printBool v id [x])
  | variableDefinition {v id x y} : Tree .reference x → Tree .expression y → y.kind ≠ .function →
      Tree .statement (.mk .definition v id [x, y])
  | functionDefinition {v id x y} : Tree .functionName x → Tree .function y →
      Tree .statement (.mk .definition v id [x, y])
  | lastStatement {n} : Tree .statement n → Tree .statements n
  | statements {v id x y} : Tree .statement x → Tree .statements y →
      Tree .statements (.mk .statements v id [x, y])

namespace Node

def branch (k : Kind) (cs : List Node) : Node :=
  mk k .nothing 0 cs

def number (m : Int) : Node :=
  mk .number (.int m) 0 []

def identifier (x : String) : Node :=
  mk .identifier (.text x) 0 []

def reference (x : String) : Node :=
  branch .reference [identifier x]

def parameterList : List String → Node
  | [] => branch .null []
  | x :: xs => branch .parameterList [reference x, parameterList xs]

def function (xs : List String) (e : Node) : Node :=
  branch .function [branch .parameters [parameterList xs], branch .body [e]]

def arguments : List Node → Node
  | [] => branch .null []
  | e :: es => branch .arguments [branch .argument [e], arguments es]

def call (f : String) (es : List Node) : Node :=
  branch .callDefined [branch .functionName [identifier f], arguments es]

def define (x : String) (e : Node) : Node :=
  branch .definition [reference x, e]

def defineFunction (f : String) (xs : List String) (e : Node) : Node :=
  branch .definition [branch .functionName [identifier f], function xs e]

def program (n : Node) : List Node → Node
  | [] => n
  | m :: ns => branch .statements [n, program m ns]

end Node

namespace Tree

lemma reference_of (x : String) : Tree .reference (.reference x) :=
  .reference .identifier

lemma function_of {e : Node} (xs : List String) (he : Tree .expression e) : Tree .function (.function xs e) := by
  have hxs : Tree .references (Node.parameterList xs) := by
    induction xs with
    | nil => exact .noReferences
    | cons x xs ih => exact .references (.reference_of x) ih
  exact .function (.parameters hxs) (.body he)

lemma arguments_of {es : List Node} (h : ∀ e ∈ es, Tree .expression e) : Tree .arguments (.arguments es) := by
  induction es with
  | nil => exact .noArguments
  | cons e es ih => exact .arguments (.argument (h e (by simp))) (ih fun e he => h e (by simp [he]))

lemma call_of {es : List Node} (f : String) (h : ∀ e ∈ es, Tree .expression e) : Tree .expression (.call f es) :=
  .callDefined (.functionName .identifier) (.arguments_of h)

lemma program_of {n : Node} {ns : List Node} (h : ∀ m ∈ n :: ns, Tree .statement m) :
    Tree .statements (.program n ns) := by
  induction ns generalizing n with
  | nil => exact .lastStatement (h n (by simp))
  | cons m ns ih => exact .statements (h n (by simp)) (ih fun k hk => h k (by simp_all))

end Tree

lemma declares_parameterList (xs : List String) : Declares (xs.map .text) (.parameterList xs) := by
  induction xs with
  | nil => exact .nil ⟨rfl, rfl⟩
  | cons x xs ih => exact .cons (c := .identifier x) ⟨rfl, rfl⟩ ⟨rfl, rfl⟩ ih

lemma declared_function (xs : List String) (y : Node) : Declared (xs.map .text) y (.function xs y) :=
  .mk ⟨rfl, rfl⟩ ⟨rfl, rfl⟩ (declares_parameterList xs) ⟨rfl, rfl⟩

def Node.IsTree (n : Node) : Prop :=
  ∃ x, Tree x n

def Kind.parts : Kind → List Symbol
  | .statements => [.statement, .statements]
  | .binary _ | .operands => [.expression, .expressions]
  | .conditional => [.test, .consequence, .alternative]
  | .definition => [.reference, .functionName, .expression, .function]
  | .reference | .functionName => [.identifier]
  | .parameterList => [.reference, .references]
  | .callAnonymous => [.function, .arguments]
  | .callDefined => [.functionName, .arguments]
  | .function => [.parameters, .body]
  | .parameters => [.references]
  | .arguments => [.argument, .arguments]
  | .negation | .printNumber | .printBool | .test | .consequence | .alternative | .body | .argument => [.expression]
  | .number | .bool | .identifier | .null | .other _ => []

lemma Node.IsTree.part_symbol {n m : Node} (h : n.IsTree) (hm : m ∈ n.children) : ∃ y ∈ n.kind.parts, Tree y m := by
  obtain ⟨x, h⟩ := h
  induction h with
  | ofReference _ ih | ofFunction _ ih | ofExpression _ ih | statement _ ih | lastStatement _ ih => exact ih hm
  | identifier | number | bool | noReferences | noArguments => simp [Node.children] at hm
  | reference h | functionName h | negation h | parameters h | body h | argument h | test h
  | consequence h | alternative h | printNumber h | printBool h =>
    obtain rfl : m = _ := by simpa [Node.children] using hm
    exact ⟨_, by simp [Node.kind, Kind.parts], h⟩
  | binary h h' | variadic _ h h' | callAnonymous h h' | callDefined h h' | operands h h'
  | references h h' | function h h' | arguments h h' | variableDefinition h h' | functionDefinition h h'
  | statements h h' =>
    obtain rfl | rfl : m = _ ∨ m = _ := by simpa [Node.children] using hm
    · exact ⟨_, by simp [Node.kind, Kind.parts], h⟩
    · exact ⟨_, by simp [Node.kind, Kind.parts], h'⟩
  | conditional h h' h'' =>
    obtain rfl | rfl | rfl : m = _ ∨ m = _ ∨ m = _ := by simpa [Node.children] using hm
    · exact ⟨_, by simp [Node.kind, Kind.parts], h⟩
    · exact ⟨_, by simp [Node.kind, Kind.parts], h'⟩
    · exact ⟨_, by simp [Node.kind, Kind.parts], h''⟩

lemma Node.IsTree.child {n c : Node} (h : n.IsTree) (hc : c ∈ n.children) : c.IsTree := by
  obtain ⟨y, _, hy⟩ := h.part_symbol hc
  exact ⟨y, hy⟩

def Symbol.IsInner (x : Symbol) : Prop :=
  x ≠ .statement ∧ x ≠ .statements

def Node.IsInner (n : Node) : Prop :=
  ∃ x : Symbol, x.IsInner ∧ Tree x n

lemma Tree.isInner {x : Symbol} {n : Node} (h : Tree x n) (hx : x.IsInner) : n.IsInner :=
  ⟨x, hx, h⟩

lemma Node.IsInner.kind_ne {n : Node} (h : n.IsInner) :
    (n.kind ≠ .definition ∧ n.kind ≠ .statements) ∧ n.kind ≠ .printNumber ∧ n.kind ≠ .printBool := by
  obtain ⟨x, hx, h⟩ := h
  induction h with
  | ofReference _ ih | ofFunction _ ih | ofExpression _ ih => exact ih (by simp [Symbol.IsInner])
  | statement | printNumber | printBool | variableDefinition | functionDefinition => simp [Symbol.IsInner] at hx
  | lastStatement | statements => simp [Symbol.IsInner] at hx
  | _ => simp [Node.kind]

lemma Node.IsInner.isTree {n : Node} (h : n.IsInner) : n.IsTree :=
  ⟨h.choose, h.choose_spec.2⟩

lemma Node.IsInner.child {n c : Node} (h : n.IsInner) (hc : c ∈ n.children) : c.IsInner := by
  obtain ⟨y, hy, ht⟩ := h.isTree.part_symbol hc
  have hk := h.kind_ne
  refine ht.isInner ?_
  cases hn : n.kind <;> simp_all [Kind.parts, Symbol.IsInner]
  all_goals rcases hy with rfl | rfl | rfl <;> simp

lemma Node.IsInner.part {n m : Node} (h : n.IsInner) (hm : n.Part m) : m.IsInner := by
  obtain hm | ⟨_, c, hc, _, hm⟩ := hm
  · exact h.child hm
  · exact (h.child hc).child hm

lemma Tree.eq_arguments {x : Symbol} {n : Node} (h : Tree x n) (hn : n.kind = .arguments) : x = .arguments := by
  induction h with
  | ofReference h ih | ofFunction h ih | ofExpression h ih | statement h ih | lastStatement h ih =>
    cases ih hn
  | arguments => rfl
  | _ => simp [Node.kind] at hn

lemma Node.IsInner.kind_of_child {n c : Node} (h : n.IsInner) (hcall : ¬ n.IsCall) (hn : n.kind ≠ .arguments)
    (hc : c ∈ n.children) : c.kind ≠ .arguments := by
  intro hk
  obtain ⟨y, hy, ht⟩ := h.isTree.part_symbol hc
  obtain rfl := ht.eq_arguments hk
  cases hkind : n.kind <;> simp_all [Kind.parts, Node.IsCall]

structure Store.Proper (s : Store) : Prop where
  function : ∀ i f c, s.frame? i = some f → f.function = some c → Tree .function c
  place : ∀ e ∈ s.functions.entries, e.2 < s.frames.size

lemma Store.Proper.empty : Store.Proper {} :=
  ⟨fun i f c hf => by simp [Store.frame?] at hf, fun e he => (List.not_mem_nil he).elim⟩

structure Extends (s t : Store) : Prop where
  globals : t.globals = s.globals
  functions : t.functions = s.functions
  out : t.out = s.out
  size : s.frames.size ≤ t.frames.size
  proper : s.Proper → t.Proper

namespace Extends

variable {s t u : Store} {i : Nat}

lemma refl (s : Store) : Extends s s :=
  ⟨rfl, rfl, rfl, Nat.le_refl _, id⟩

lemma trans (h : Extends s t) (h' : Extends t u) : Extends s u :=
  ⟨h'.globals.trans h.globals, h'.functions.trans h.functions, h'.out.trans h.out,
    Nat.le_trans h.size h'.size,
    fun hs => h'.proper (h.proper hs)⟩

lemma modifyFrame {F : Frame → Frame} (hF : ∀ f, (F f).function = f.function) : Extends s (s.modifyFrame i F) := by
  have hsize : (s.modifyFrame i F).frames.size = s.frames.size := Array.size_modify
  refine ⟨rfl, rfl, rfl, Nat.le_of_eq hsize.symm, fun hs => ⟨fun j f c hf hc => ?_, fun e he => ?_⟩⟩
  · rw [Store.frame?_modifyFrame] at hf
    split at hf
    · obtain ⟨g, hg, rfl⟩ := Option.map_eq_some_iff.mp hf
      exact hs.function j g c hg (by rw [← hF, hc])
    · exact hs.function j f c hf hc
  · rw [hsize]
    exact hs.place e he

lemma push {f : Frame} (hf : ∀ c, s.Proper → f.function = some c → Tree .function c) :
    Extends s { s with frames := s.frames.push f } := by
  refine ⟨rfl, rfl, rfl, by simp, fun hs => ⟨fun j g c hg hc => ?_, fun e he => ?_⟩⟩
  · simp only [Store.frame?, Array.getElem?_push] at hg
    split at hg
    · cases hg
      exact hf c hs hc
    · exact hs.function j g c hg hc
  · have := hs.place e he
    simp only [Array.size_push]
    omega

lemma calls (is : List Nat) (cs : List Scope) : Extends s { s with calls := is, scopes := cs } :=
  ⟨rfl, rfl, rfl, Nat.le_refl _, fun hs => ⟨hs.function, hs.place⟩⟩

lemma memo (m : Registry Call Value) : Extends s { s with memo := m } :=
  ⟨rfl, rfl, rfl, Nat.le_refl _, fun hs => ⟨hs.function, hs.place⟩⟩

lemma openAnonymous {c : Node} (hc : Tree .function c) : Extends s (s.openAnonymous c) :=
  (push fun _ _ h => by cases h; exact hc).trans (calls _ _)

end Extends

lemma Store.same_of_current? {s : Store} {name : Value} {i : Nat} {f : Frame} (h : s.current? name = some (i, f)) :
    s.calls.head? = some i ∧ s.frame? i = some f ∧ name.same f.name = true := by
  cases hs : s.calls with
  | nil => simp [Store.current?, hs] at h
  | cons j js =>
    cases hf : s.frame? j with
    | none => simp [Store.current?, hs, hf] at h
    | some g =>
      simp only [Store.current?, hs, hf] at h
      split at h
      · cases h
        exact ⟨rfl, hf, ‹_›⟩
      · cases h

lemma Store.frame?_of_current? {s : Store} {name : Value} {i : Nat} {f : Frame} (h : s.current? name = some (i, f)) :
    s.frame? i = some f :=
  (same_of_current? h).2.1

lemma Entered.extends {s t : Store} {name : Value} {i : Nat} (h : Entered s name i t) : Extends s t := by
  cases h with
  | copy hc =>
    refine (Extends.push fun c hs h => ?_).trans (Extends.calls _ _)
    exact hs.function _ _ c (Store.frame?_of_current? hc) h
  | own hc hf =>
    have hm : Extends s (s.modifyFrame i fun f =>
      { f with parameters := [], arguments := [], caller := s.calls.head? }) :=
      .modifyFrame fun _ => rfl
    exact hm.trans (Extends.calls _ _)

lemma Plain.extends {n : Node} {s t : Store} (h : Plain n s t) (hn : n.IsInner) : Extends s t := by
  obtain ⟨⟨hd, -⟩, hp, hb⟩ := hn.kind_ne
  cases h with
  | operators => exact ⟨rfl, rfl, rfl, Nat.le_refl _, fun hs => ⟨hs.function, hs.place⟩⟩
  | print _ hk => exact (hk.elim hp hb).elim
  | global _ hk => exact (hd hk).elim
  | function hk => exact (hd hk).elim
  | argument => exact .modifyFrame fun _ => rfl
  | parameter => exact .modifyFrame fun _ => rfl

lemma Tree.inner_function {c : Node} (h : Tree .function c) : c.IsInner :=
  h.isInner (by simp [Symbol.IsInner])

lemma Node.IsInner.callee {n c : Node} (h : n.IsInner) (hn : n.kind = .callAnonymous)
    (hc : n.children[0]? = some c) : Tree .function c := by
  obtain ⟨x, hx, h⟩ := h
  induction h with
  | ofReference _ ih | ofFunction _ ih | ofExpression _ ih => exact ih hn hc (by simp [Symbol.IsInner])
  | callAnonymous hf _ =>
    cases hc
    exact hf
  | statement | lastStatement => simp [Symbol.IsInner] at hx
  | _ => simp [Node.kind] at hn

lemma Node.IsInner.call_arguments {n c : Node} (h : n.IsInner) (hn : n.IsCall) (hc : n.children[1]? = some c) :
    Tree .arguments c := by
  obtain ⟨x, hx, h⟩ := h
  induction h with
  | ofReference _ ih | ofFunction _ ih | ofExpression _ ih => exact ih hn hc (by simp [Symbol.IsInner])
  | callAnonymous _ ha | callDefined _ ha =>
    cases hc
    exact ha
  | statement | lastStatement => simp [Symbol.IsInner] at hx
  | _ => simp [Node.IsCall, Node.kind] at hn

lemma stable_extends : Stable Node.IsInner Store.Proper Extends where
  refl := .refl
  trans := .trans
  keeps h := h.proper
  child := .child
  function hs hf hc := (hs.function _ _ _ hf hc).inner_function
  plain hn h := h.extends hn
  calls _ _ _ := .calls _ _
  memo _ _ _ := .memo _
  opened _ hn hk hc := .openAnonymous (hn.callee hk hc)
  entered h := h.extends
  bindings _ _ _ := .modifyFrame fun _ => rfl

namespace Eval

variable {G : Meaning} {n function : Node} {s t : Store} {i : Nat} {name : Value}

lemma function_openDefined (hs : s.Proper) (h : (openDefined n s).Runs G (.ok (name, i, function)) t) :
    Tree .function function := by
  obtain ⟨_, u, f, v, he, hf, hfun, hv⟩ := runs_openDefined.mp h
  have hp : Extends s (s.pushScope .defined) := .calls _ _
  exact ((hp.trans he.extends).proper hs).function i f function hf hfun

section

variable (hG : ∀ n s v t, G n s (.ok v) t → n.IsInner → s.Proper → Extends s t)

include hG

lemma place_openAnonymous (hn : n.IsInner) (hk : n.kind = .callAnonymous) (hs : s.Proper)
    (h : (openAnonymous n s).Runs G (.ok (i, function)) t) : i < t.frames.size := by
  obtain ⟨hc, rfl, v, hv⟩ := runs_openAnonymous.mp h
  have hf := hn.callee hk hc
  have ht := hG _ _ _ _ hv hf.inner_function (Extends.proper (.openAnonymous hf) hs)
  exact Nat.lt_of_lt_of_le (by simp [Store.openAnonymous]) ht.size

lemma place_openDefined (hs : s.Proper) (h : (openDefined n s).Runs G (.ok (name, i, function)) t) :
    i < t.frames.size := by
  obtain ⟨_, u, f, v, he, hf, hfun, hv⟩ := runs_openDefined.mp h
  have hp : Extends s (s.pushScope .defined) := .calls _ _
  have hu := (hp.trans he.extends).proper hs
  have ht := hG _ _ _ _ hv (hu.function i f function hf hfun).inner_function hu
  exact Nat.lt_of_lt_of_le (Store.lt_of_frame? hf) ht.size

end

end Eval

variable {memoize : Bool}

lemma Settles.extends {n : Node} {s t : Store} {v : Value} (h : Settles memoize n s (.ok v) t) (hn : n.IsInner)
    (hs : s.Proper) : Extends s t :=
  stable_extends.settles h hn hs

lemma settles_extends (n : Node) (s : Store) (v : Value) (t : Store) :
    Settles memoize n s (.ok v) t → n.IsInner → s.Proper → Extends s t :=
  Settles.extends

lemma Enters.extends {c c' : Node × Store} (h : Enters memoize c c') (hn : c.1.IsInner)
    (hs : c.2.Proper) : c'.1.IsInner ∧ Extends c.2 c'.2 :=
  stable_extends.enters h hn hs

lemma Reaches.extends {c c' : Node × Store} (h : Reaches memoize c c') (hn : c.1.IsInner)
    (hs : c.2.Proper) : c'.1.IsInner ∧ Extends c.2 c'.2 := by
  induction h with
  | refl => exact ⟨hn, .refl _⟩
  | tail _ he ih =>
    obtain ⟨hm, ht⟩ := he.extends ih.1 (ih.2.proper hs)
    exact ⟨hm, ih.2.trans ht⟩

lemma Node.IsTree.inner_of_call {n : Node} (h : n.IsTree) (hn : n.IsCall) : n.IsInner := by
  obtain ⟨x, h⟩ := h
  refine ⟨.expression, by simp [Symbol.IsInner], ?_⟩
  induction h with
  | ofReference h ih | ofFunction h ih | ofExpression h ih | statement h ih | lastStatement h ih => exact ih hn
  | callAnonymous h h' => exact .callAnonymous h h'
  | callDefined h h' => exact .callDefined h h'
  | _ => simp [Node.IsCall, Node.kind] at hn

lemma Node.IsTree.defined {n target tree : Node} (h : n.IsTree) (hn : n.kind = .definition)
    (ht : n.children[0]? = some target) (hk : target.kind = .functionName)
    (htree : n.children[1]? = some tree) : Tree .function tree := by
  obtain ⟨x, h⟩ := h
  induction h with
  | ofReference _ ih | ofFunction _ ih | ofExpression _ ih | statement _ ih | lastStatement _ ih =>
    exact ih hn ht htree
  | variableDefinition h =>
    cases ht
    cases h with
    | reference => simp [Node.kind] at hk
  | functionDefinition _ h =>
    cases htree
    exact h
  | _ => simp [Node.kind] at hn

def Grown (s t : Store) : Prop :=
  s.frames.size ≤ t.frames.size ∧ (s.Proper → t.Proper)

lemma Grown.trans {s t u : Store} (h : Grown s t) (h' : Grown t u) : Grown s u :=
  ⟨Nat.le_trans h.1 h'.1, h'.2 ∘ h.2⟩

lemma Extends.grown {s t : Store} (h : Extends s t) : Grown s t :=
  ⟨h.size, h.proper⟩

lemma Plain.grown {n : Node} {s t : Store} (h : Plain n s t) (hn : n.IsTree) : Grown s t := by
  cases h with
  | operators | print | global => exact ⟨Nat.le_refl _, fun hs => ⟨hs.function, hs.place⟩⟩
  | argument | parameter => exact Extends.grown (.modifyFrame fun _ => rfl)
  | @function target name tree hk ht hkt _ htree =>
    have hp := Extends.push (s := s) (f := { name := name.value, function := some tree }) fun c _ hc => by
      cases hc
      exact hn.defined hk ht hkt htree
    refine ⟨hp.size, fun hs => ⟨(hp.proper hs).function, fun e he => ?_⟩⟩
    obtain he | ⟨he, _⟩ := Registry.mem_insert he
    · exact (hp.proper hs).place e he
    · rw [he]
      simp

lemma Stable.of_extends {N : Node → Prop} {R : Store → Store → Prop} (htree : ∀ {n}, N n → n.IsTree)
    (hchild : ∀ {n c}, N n → c ∈ n.children → N c) (hfunction : ∀ {c}, Tree .function c → N c)
    (hextends : ∀ {s t}, Extends s t → R s t) (htrans : ∀ {s t u}, R s t → R t u → R s u)
    (hproper : ∀ {s t}, R s t → s.Proper → t.Proper) (hplain : ∀ {n s t}, N n → Plain n s t → R s t) :
    Stable N Store.Proper R where
  refl s := hextends (.refl s)
  trans := htrans
  keeps := hproper
  child := hchild
  function hs hf hc := hfunction (hs.function _ _ _ hf hc)
  plain := hplain
  calls _ _ _ := hextends (.calls _ _)
  memo _ _ _ := hextends (.memo _)
  opened _ hn hk hc := hextends (.openAnonymous (((htree hn).inner_of_call (.inl hk)).callee hk hc))
  entered h := hextends h.extends
  bindings _ _ _ := hextends (.modifyFrame fun _ => rfl)

lemma stable_grown : Stable Node.IsTree Store.Proper Grown :=
  .of_extends id .child (fun h => ⟨_, h⟩) Extends.grown .trans And.right fun hn h => h.grown hn

end LispKit.Lisp
