import LispKit.Proofs.Lisp.Acceptance
import LispKit.Proofs.Lisp.Safety

/-! The faults that can end a valid program, from the source on. -/

namespace LispKit.Lisp

open Lexeme List Node

section Bare

namespace Node

variable {n x y z : Node} {k : Kind} {v : Value} {i : Int}

lemma eq_of_bare {cs : List Node} (h : n.bare = (mk k v i cs).bare) :
    ∃ j ds, n = .mk k v j ds ∧ ds.map bare = cs.map bare := by
  obtain ⟨k', v', j, ds⟩ := n
  rw [bare_mk, bare_mk] at h
  injection h with hk hv _ hds
  exact ⟨j, ds, by rw [hk, hv], hds⟩

lemma eq_of_bare_nil (h : n.bare = (mk k v i []).bare) : ∃ j, n = .mk k v j [] := by
  obtain ⟨j, ds, rfl, hds⟩ := eq_of_bare h
  exact ⟨j, by rw [map_eq_nil_iff.mp hds]⟩

lemma eq_of_bare_one (h : n.bare = (mk k v i [x]).bare) : ∃ j x', n = .mk k v j [x'] ∧ x'.bare = x.bare := by
  obtain ⟨j, ds, rfl, hds⟩ := eq_of_bare h
  obtain ⟨x', rfl, hx⟩ := map_eq_singleton_iff.mp hds
  exact ⟨j, x', rfl, hx⟩

lemma eq_of_bare_two (h : n.bare = (mk k v i [x, y]).bare) :
    ∃ j x' y', n = .mk k v j [x', y'] ∧ x'.bare = x.bare ∧ y'.bare = y.bare := by
  obtain ⟨j, ds, rfl, hds⟩ := eq_of_bare h
  obtain ⟨x', ds, rfl, hx, hds⟩ := map_eq_cons_iff.mp hds
  obtain ⟨y', rfl, hy⟩ := map_eq_singleton_iff.mp hds
  exact ⟨j, x', y', rfl, hx, hy⟩

end Node

lemma Tree.of_bare {s : Symbol} {m n : Node} (h : Tree s m) (hn : n.bare = m.bare) : Tree s n := by
  induction h generalizing n with
  | ofReference _ ih => exact .ofReference (ih hn)
  | ofFunction _ ih => exact .ofFunction (ih hn)
  | ofExpression _ ih => exact .ofExpression (ih hn)
  | statement _ ih => exact .statement (ih hn)
  | lastStatement _ ih => exact .lastStatement (ih hn)
  | number =>
    obtain ⟨j, rfl⟩ := eq_of_bare_nil hn
    exact .number
  | bool =>
    obtain ⟨j, rfl⟩ := eq_of_bare_nil hn
    exact .bool
  | identifier | noReferences | noArguments =>
    obtain ⟨j, rfl⟩ := eq_of_bare_nil hn
    constructor
  | negation _ ih =>
    obtain ⟨j, x, rfl, hx⟩ := eq_of_bare_one hn
    exact .negation (ih hx)
  | printNumber _ ih =>
    obtain ⟨j, x, rfl, hx⟩ := eq_of_bare_one hn
    exact .printNumber (ih hx)
  | printBool _ ih =>
    obtain ⟨j, x, rfl, hx⟩ := eq_of_bare_one hn
    exact .printBool (ih hx)
  | reference _ ih | functionName _ ih | parameters _ ih | body _ ih | argument _ ih | test _ ih
  | consequence _ ih | alternative _ ih =>
    obtain ⟨j, x, rfl, hx⟩ := eq_of_bare_one hn
    constructor
    exact ih hx
  | binary _ _ ih ih' =>
    obtain ⟨j, x, y, rfl, hx, hy⟩ := eq_of_bare_two hn
    exact .binary (ih hx) (ih' hy)
  | variadic hb _ _ ih ih' =>
    obtain ⟨j, x, y, rfl, hx, hy⟩ := eq_of_bare_two hn
    exact .variadic hb (ih hx) (ih' hy)
  | callAnonymous _ _ ih ih' =>
    obtain ⟨j, x, y, rfl, hx, hy⟩ := eq_of_bare_two hn
    exact .callAnonymous (ih hx) (ih' hy)
  | callDefined _ _ ih ih' =>
    obtain ⟨j, x, y, rfl, hx, hy⟩ := eq_of_bare_two hn
    exact .callDefined (ih hx) (ih' hy)
  | operands _ _ ih ih' =>
    obtain ⟨j, x, y, rfl, hx, hy⟩ := eq_of_bare_two hn
    exact .operands (ih hx) (ih' hy)
  | references _ _ ih ih' | function _ _ ih ih' | arguments _ _ ih ih' =>
    obtain ⟨j, x, y, rfl, hx, hy⟩ := eq_of_bare_two hn
    constructor
    · exact ih hx
    · exact ih' hy
  | variableDefinition _ _ hk ih ih' =>
    obtain ⟨j, x, y, rfl, hx, hy⟩ := eq_of_bare_two hn
    exact .variableDefinition (ih hx) (ih' hy) (by rwa [← kind_bare, hy, kind_bare])
  | functionDefinition _ _ ih ih' =>
    obtain ⟨j, x, y, rfl, hx, hy⟩ := eq_of_bare_two hn
    exact .functionDefinition (ih hx) (ih' hy)
  | statements _ _ ih ih' =>
    obtain ⟨j, x, y, rfl, hx, hy⟩ := eq_of_bare_two hn
    exact .statements (ih hx) (ih' hy)
  | conditional _ _ _ ih ih' ih'' =>
    obtain ⟨j, ds, rfl, hds⟩ := eq_of_bare hn
    obtain ⟨x, ds, rfl, hx, hds⟩ := map_eq_cons_iff.mp hds
    obtain ⟨y, ds, rfl, hy, hds⟩ := map_eq_cons_iff.mp hds
    obtain ⟨z, rfl, hz⟩ := map_eq_singleton_iff.mp hds
    exact .conditional (ih hx) (ih' hy) (ih'' hz)

lemma Node.Named.of_bare {m n : Node} (h : m.Named) (hn : n.bare = m.bare) : n.Named := by
  induction h generalizing n with
  | mk hv _ ih =>
    obtain ⟨j, ds, rfl, hds⟩ := eq_of_bare hn
    refine .mk hv fun c hc => ?_
    obtain ⟨c', hc', hbare⟩ := mem_map.mp (hds ▸ mem_map_of_mem hc)
    exact ih c' hc' hbare.symm

end Bare

section Syntax

lemma Tree.operands_of {n : Node} {ns : List Node} (hn : Tree .expression n) (h : ∀ m ∈ ns, Tree .expression m) :
    Tree .expressions (Node.operands n ns) := by
  induction ns generalizing n with
  | nil => exact .ofExpression hn
  | cons m ns ih => exact .operands hn (ih (h m (by simp)) fun k hk => h k (by simp [hk]))

lemma Expression.forall_nodes {P : Node → Prop} {es : List Expression} (h : ∀ e ∈ es, P e.node) :
    ∀ n ∈ nodes es, P n := by
  rw [nodes_eq]
  exact forall_mem_map.mpr h

lemma Expression.tree_node (e : Expression) : Tree .expression e.node := by
  induction e using Expression.induct with
  | number n => exact .number
  | truth b => exact .bool
  | name x => exact .ofReference (.reference_of _)
  | chain b h x y zs hx hy hzs => exact .variadic h hx (.operands_of hy (forall_nodes hzs))
  | pair b h x y hx hy => exact .binary hx hy
  | not x hx => exact .negation hx
  | function xs e he => exact .ofFunction (.function_of _ he)
  | apply xs e as he has => exact .callAnonymous (.function_of _ he) (.arguments_of (forall_nodes has))
  | call f as has => exact .call_of _ (forall_nodes has)
  | conditional x y z hx hy hz => exact .conditional (.test hx) (.consequence hy) (.alternative hz)

lemma Statement.tree_node (s : Statement) : Tree .statement s.node := by
  cases s with
  | expression e => exact .statement e.tree_node
  | printNumber e => exact .printNumber e.tree_node
  | printBool e => exact .printBool e.tree_node
  | define x e =>
    cases e with
    | function xs e => exact .functionDefinition (.functionName .identifier) (.function_of _ e.tree_node)
    | number | truth | name | chain | pair | not | apply | call | conditional =>
      exact .variableDefinition (.reference_of _) (Expression.tree_node _) (by simp [Expression.node, Node.kind, Node.number, Node.reference, Node.branch, Node.call])

lemma Program.tree_node (p : Program) : Tree .statements p.node :=
  .program_of (forall_mem_cons.mpr ⟨p.first.tree_node, forall_mem_map.mpr fun s _ => s.tree_node⟩)

namespace Node.Named

lemma branch {k : Kind} {cs : List Node} (h : ∀ c ∈ cs, c.Named) : (Node.branch k cs).Named :=
  .mk rfl h

lemma identifier (x : Name) : (Node.identifier x.text).Named := by
  refine .mk ?_ (by simp)
  rw [Bool.eq_false_iff]
  intro h
  have htext : x.text = "_" := by simpa [Value.same, Value.number?, anonymousName] using h
  have hword : x.word = ['_'] := by rw [← String.toList_ofList (l := x.word)]; exact congrArg String.toList htext
  have := x.isWord
  rw [hword] at this
  cases this

lemma reference (x : Name) : (Node.reference x.text).Named :=
  branch (by simpa using identifier x)

lemma function (xs : List Name) {n : Node} (h : n.Named) : (Node.function (xs.map Name.text) n).Named := by
  have hxs : (Node.parameterList (xs.map Name.text)).Named := by
    induction xs with
    | nil => exact branch (by simp)
    | cons x xs ih => exact branch (by simpa using ⟨reference x, ih⟩)
  exact branch (by simpa using ⟨branch (by simpa using hxs), branch (by simpa using h)⟩)

lemma arguments {ns : List Node} (h : ∀ n ∈ ns, n.Named) : (Node.arguments ns).Named := by
  induction ns with
  | nil => exact branch (by simp)
  | cons n ns ih =>
    have hn : (Node.branch .argument [n]).Named := branch (by simpa using h n (by simp))
    exact branch (by simpa using ⟨hn, ih fun m hm => h m (by simp [hm])⟩)

lemma operands {n : Node} {ns : List Node} (hn : n.Named) (h : ∀ m ∈ ns, m.Named) : (Node.operands n ns).Named := by
  induction ns generalizing n with
  | nil => exact hn
  | cons m ns ih => exact branch (by simpa using ⟨hn, ih (h m (by simp)) fun k hk => h k (by simp [hk])⟩)

end Node.Named

lemma Expression.named_node (e : Expression) : e.node.Named := by
  induction e using Expression.induct with
  | number n => exact .mk rfl (by simp)
  | truth b => exact .mk rfl (by simp)
  | name x => exact .reference x
  | chain b h x y zs hx hy hzs => exact .branch (by simpa using ⟨hx, .operands hy (forall_nodes hzs)⟩)
  | pair b h x y hx hy => exact .branch (by simpa using ⟨hx, hy⟩)
  | not x hx => exact .branch (by simpa using hx)
  | function xs e he => exact .function xs he
  | apply xs e as he has => exact .branch (by simpa using ⟨.function xs he, .arguments (forall_nodes has)⟩)
  | call f as has =>
    have hf : (Node.branch .functionName [.identifier f.text]).Named := .branch (by simpa using .identifier f)
    exact .branch (by simpa using ⟨hf, .arguments (forall_nodes has)⟩)
  | conditional x y z hx hy hz =>
    have h : ∀ k {n : Node}, n.Named → (Node.branch k [n]).Named := fun _ _ hn => .branch (by simpa using hn)
    exact .branch (by simpa using ⟨h _ hx, h _ hy, h _ hz⟩)

lemma Statement.named_node (s : Statement) : s.node.Named := by
  cases s with
  | expression e => exact e.named_node
  | printNumber e | printBool e => exact .branch (by simpa using e.named_node)
  | define x e =>
    cases e with
    | function xs e =>
      have hx : (Node.branch .functionName [.identifier x.text]).Named := .branch (by simpa using .identifier x)
      exact .branch (by simpa using ⟨hx, .function xs e.named_node⟩)
    | number | truth | name | chain | pair | not | apply | call | conditional =>
      exact .branch (by simpa using ⟨.reference x, Expression.named_node _⟩)

lemma Node.Named.program {n : Node} {ns : List Node} (hn : n.Named) (h : ∀ m ∈ ns, m.Named) :
    (Node.program n ns).Named := by
  induction ns generalizing n with
  | nil => exact hn
  | cons m ns ih => exact .branch (by simpa using ⟨hn, ih (h m (by simp)) fun k hk => h k (by simp [hk])⟩)

lemma Program.named_node (p : Program) : p.node.Named :=
  .program p.first.named_node (forall_mem_map.mpr fun s _ => s.named_node)

end Syntax

/-- Wherever the evaluation of a valid program comes to, scopes and calls go in step, all children are there that are
asked for, the operator of further operands is the one they belong to, and arguments have a call to go to. Apart from
the bound on the depth, a program can only fail where a node is to blame for it. -/
theorem evaluation_safe (source : String) (limits : Limits) (hsteps : 14 * source.length + 4 ≤ limits.steps)
    (hdepth : 0 < limits.depth) (hshort : ShortNumerals (pieces source.toList)) {v : Option Phrase}
    {c : Parser.Config Symbol Phrase Reading} (hread : read limits tables {} scanner {} source = .finished v c)
    (hvalid : c.host.desk.valid = true) :
    ∃ p, treeOf v = some p ∧ ∀ (n : Node) (s : Store), Reaches true (p, {}) (n, s) →
      (s.scopes.length = s.calls.length ∧ ∀ (k i : Nat), s.calls[k]? = some i →
        ∃ f, s.frame? i = some f ∧ (s.scopes[k]? = some Scope.anonymous ↔ f.isAnonymous = true)) ∧
      (∀ m ∈ n :: n.children, m.children.length = m.kind.arity) ∧
      (n.kind = .operands → Governed true p (n, s)) ∧
      (∀ w t, Settles true n s (.ok w) t → t.operators = s.operators) ∧
      (n.kind = .arguments → s.calls ≠ []) ∧
      (n.kind = .reference → s.scopes ≠ [] → s.calls ≠ []) ∧
      ∀ d e t, evaluate true d n s = (.error e, t) → e = .tooDeep ∨
        ∃ m u, Reaches true (n, s) (m, u) ∧ Blamed true p m u e t := by
  obtain ⟨p, n, -, htree, hn⟩ := read_valid hsteps hdepth hshort rfl hread hvalid
  have hbare : n.bare = p.node.bare := by rw [← hn, Node.bare_bare]
  have ht : Tree .statements n := p.tree_node.of_bare hbare
  have hnamed : n.Named := p.named_node.of_bare hbare
  refine ⟨n, htree, fun m s hr => ?_⟩
  have hm := hr.guarded ht hnamed
  have hlength : s.scopes.length = s.calls.length := hm.matched.length_eq
  refine ⟨⟨hlength, fun k i => Store.Matched.place hm.matched⟩, ?_, hm.operands, fun w t h => h.operators, hm.arguments, ?_, ?_⟩
  · exact forall_mem_cons.mpr ⟨hm.regular.tree.arity, fun c hc => (hm.regular.tree.child hc).arity⟩
  · intro _ hscopes hcalls
    rw [hcalls] at hlength
    exact hscopes (eq_nil_of_length_eq_zero hlength)
  · intro d e t he
    by_cases hdeep : e = .tooDeep
    · exact .inl hdeep
    have hsettles : Settles true m s (.error e) t := ⟨by simpa using hdeep, d, he⟩
    obtain ⟨k, u, hk, hfails⟩ := hsettles.origin
    have hreach : Reaches true (n, {}) (k, u) := hr.trans hk
    exact .inr ⟨k, u, hk, (hreach.guarded ht hnamed).blamed hfails⟩

theorem evaluation_safe_successor : ∃ v c p, read ⟨1000, 1⟩ tables {} scanner {} successorSource = .finished v c ∧
    c.host.desk.valid = true ∧ treeOf v = some p ∧ ∀ (n : Node) (s : Store), Reaches true (p, {}) (n, s) →
      s.scopes.length = s.calls.length ∧ ∀ d e t, evaluate true d n s = (.error e, t) → e = .tooDeep ∨
        ∃ m u, Reaches true (n, s) (m, u) ∧ Blamed true p m u e t := by
  have hshort := Program.short_rendered rendered_successor
  have hlexemes := (lexemes_rendered rendered_successor successorProgram.isLexeme_of_mem).1
  obtain ⟨v, n, c, hread, _, _, hvalid⟩ : ∃ v n c, read ⟨1000, 1⟩ tables {} scanner {} successorSource = .finished v c ∧ _ :=
    read_program (by decide) (by decide) hshort rfl hlexemes.symm
  obtain ⟨p, htree, h⟩ := evaluation_safe successorSource ⟨1000, 1⟩ (by decide) (by decide) hshort hread hvalid
  refine ⟨v, c, p, hread, hvalid, htree, fun n s hr => ?_⟩
  obtain ⟨⟨hlength, _⟩, _, _, _, _, _, hfaults⟩ := h n s hr
  exact ⟨hlength, hfaults⟩

end LispKit.Lisp
