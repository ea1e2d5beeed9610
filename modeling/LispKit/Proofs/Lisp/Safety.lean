import LispKit.Proofs.Lisp.Argument
import LispKit.Proofs.Lisp.Failure
import LispKit.Proofs.Lisp.Stacks
import Mathlib.Data.List.Forall2

/-! Safety of evaluation: the stacks of a store agree with each other and with the node that is evaluated, so that
only a few faults can end a program. -/

namespace LispKit.Lisp

open List Eval Store

inductive Node.Named : Node → Prop
  | mk {k : Kind} {v : Value} {id : Int} {cs : List Node} : v.same anonymousName = false →
      (∀ c ∈ cs, Named c) → Named (.mk k v id cs)

lemma Node.Named.value {n : Node} (h : n.Named) : n.value.same anonymousName = false := by
  cases h with
  | mk hv _ => exact hv

lemma Node.Named.child {n c : Node} (h : n.Named) (hc : c ∈ n.children) : c.Named := by
  cases h with
  | mk _ hcs => exact hcs c hc

structure Store.Labelled (s : Store) : Prop where
  function : ∀ i f, s.frame? i = some f → ∃ c, f.function = some c ∧ c.Named
  place : ∀ e ∈ s.functions.entries, ∃ f, s.frame? e.2 = some f ∧ f.isAnonymous = false

structure Labels (s t : Store) : Prop where
  name : ∀ i f, s.frame? i = some f → ∃ g, t.frame? i = some g ∧ g.name = f.name
  labelled : s.Labelled → t.Labelled

namespace Labels

variable {s t u : Store} {i : Nat}

lemma refl (s : Store) : Labels s s :=
  ⟨fun _ f hf => ⟨f, hf, rfl⟩, id⟩

lemma trans (h : Labels s t) (h' : Labels t u) : Labels s u := by
  refine ⟨fun i f hf => ?_, h'.labelled ∘ h.labelled⟩
  obtain ⟨g, hg, hname⟩ := h.name i f hf
  obtain ⟨k, hk, hname'⟩ := h'.name i g hg
  exact ⟨k, hk, hname'.trans hname⟩

lemma of_eq (hframes : t.frames = s.frames) (hfunctions : t.functions = s.functions) : Labels s t := by
  have hf : ∀ i, t.frame? i = s.frame? i := fun i => congrArg (·[i]?) hframes
  refine ⟨fun i f h => ⟨f, (hf i).trans h, rfl⟩, fun h => ⟨fun i f h' => h.function i f ((hf i).symm.trans h'), ?_⟩⟩
  intro e he
  obtain ⟨f, hplace, hname⟩ := h.place e (hfunctions ▸ he)
  exact ⟨f, (hf e.2).trans hplace, hname⟩

lemma modifyFrame {F : Frame → Frame} (hF : ∀ f : Frame, (F f).name = f.name ∧ (F f).function = f.function) :
    Labels s (s.modifyFrame i F) := by
  have hname : ∀ j f, s.frame? j = some f → ∃ g, (s.modifyFrame i F).frame? j = some g ∧ g.name = f.name := by
    intro j f hf
    rw [frame?_modifyFrame, hf]
    split
    · exact ⟨F f, rfl, (hF f).1⟩
    · exact ⟨f, rfl, rfl⟩
  refine ⟨hname, fun h => ⟨fun j g hg => ?_, fun e he => ?_⟩⟩
  · rw [frame?_modifyFrame] at hg
    split at hg
    · obtain ⟨f, hf, rfl⟩ := Option.map_eq_some_iff.mp hg
      rw [(hF f).2]
      exact h.function j f hf
    · exact h.function j g hg
  · obtain ⟨f, hf, hanonymous⟩ := h.place e he
    obtain ⟨g, hg, hgf⟩ := hname e.2 f hf
    refine ⟨g, hg, ?_⟩
    rw [Frame.isAnonymous, hgf]
    exact hanonymous

lemma frame?_push {f g : Frame} (h : s.frame? i = some f) :
    ({ s with frames := s.frames.push g } : Store).frame? i = some f := by
  have hi := lt_of_frame? h
  simp only [Store.frame?, Array.getElem?_push, if_neg (Nat.ne_of_lt hi)]
  exact h

lemma push {g : Frame} (hg : s.Labelled → ∃ c, g.function = some c ∧ c.Named) :
    Labels s { s with frames := s.frames.push g } := by
  refine ⟨fun i f hf => ⟨f, frame?_push hf, rfl⟩, fun h => ⟨fun j k hk => ?_, fun e he => ?_⟩⟩
  · simp only [Store.frame?, Array.getElem?_push] at hk
    split at hk
    · cases hk
      exact hg h
    · exact h.function j k hk
  · obtain ⟨f, hf, hanonymous⟩ := h.place e he
    exact ⟨f, frame?_push hf, hanonymous⟩

lemma entered {name : Value} (h : Entered s name i t) : Labels s t := by
  cases h with
  | @copy top f hcurrent =>
    have hp : Labels s { s with
        frames := s.frames.push { f with parameters := [], arguments := [], caller := some top } } :=
      push fun hs => hs.function top f (frame?_of_current? hcurrent)
    exact hp.trans (of_eq rfl rfl)
  | own =>
    have hm : Labels s (s.modifyFrame i fun f =>
        { f with parameters := [], arguments := [], caller := s.calls.head? }) := modifyFrame fun _ => ⟨rfl, rfl⟩
    exact hm.trans (of_eq rfl rfl)

lemma openAnonymous {c : Node} (hc : c.Named) : Labels s (s.openAnonymous c) := by
  have hp : Labels s { s with frames := s.frames.push { name := anonymousName, function := some c } } :=
    push fun _ => ⟨c, rfl, hc⟩
  exact hp.trans (of_eq rfl rfl)

lemma plain {n : Node} (hn : n.Named) (h : Plain n s t) : Labels s t := by
  cases h with
  | operators | print | global => exact of_eq rfl rfl
  | argument | parameter => exact modifyFrame fun _ => ⟨rfl, rfl⟩
  | @function target name tree hk ht hkt hname htree =>
    have htarget := hn.child (mem_of_getElem? ht)
    have hvalue := (htarget.child (mem_of_getElem? hname)).value
    have hp : Labels s { s with frames := s.frames.push { name := name.value, function := some tree } } :=
      push fun _ => ⟨tree, rfl, hn.child (mem_of_getElem? htree)⟩
    refine ⟨hp.name, fun hs => ⟨(hp.labelled hs).function, fun e he => ?_⟩⟩
    obtain he | ⟨he, _⟩ := Registry.mem_insert he
    · exact (hp.labelled hs).place e he
    · refine ⟨{ name := name.value, function := some tree }, ?_, hvalue⟩
      rw [he]
      simp [Store.frame?]

end Labels

lemma stable_labels : Stable Node.Named Store.Labelled Labels where
  refl := .refl
  trans := .trans
  keeps h := h.labelled
  child := .child
  function hs hf hc := by
    obtain ⟨c, hc', hn⟩ := hs.function _ _ hf
    cases hc.symm.trans hc'
    exact hn
  plain := .plain
  calls _ _ _ := .of_eq rfl rfl
  memo _ _ _ := .of_eq rfl rfl
  opened _ hn _ hc := .openAnonymous (hn.child (mem_of_getElem? hc))
  entered := .entered
  bindings _ _ _ := .modifyFrame fun _ => ⟨rfl, rfl⟩

def Store.Matched (s : Store) : Prop :=
  List.Forall₂ (fun x i => ∃ f, s.frame? i = some f ∧ (x = .anonymous ↔ f.isAnonymous = true)) s.scopes s.calls

namespace Store.Matched

variable {s t : Store} {i : Nat} {x : Scope}

section

variable (h : s.Matched)

include h

lemma mono (hl : Labels s t) : List.Forall₂ (fun x i => ∃ f, t.frame? i = some f ∧
    (x = .anonymous ↔ f.isAnonymous = true)) s.scopes s.calls := by
  refine List.Forall₂.imp (fun x i hx => ?_) h
  obtain ⟨f, hf, hiff⟩ := hx
  obtain ⟨g, hg, hname⟩ := hl.name i f hf
  refine ⟨g, hg, hiff.trans ?_⟩
  rw [Frame.isAnonymous, Frame.isAnonymous, hname]

lemma labels (hl : Labels s t) (hlevel : Level s t) : t.Matched := by
  rw [Matched, hlevel.1, hlevel.2]
  exact h.mono hl

lemma push (hl : Labels s t) (hcalls : t.calls = i :: s.calls) (hscopes : t.scopes = x :: s.scopes)
    {f : Frame} (hf : t.frame? i = some f) (hx : x = .anonymous ↔ f.isAnonymous = true) : t.Matched := by
  rw [Matched, hcalls, hscopes]
  exact .cons ⟨f, hf, hx⟩ (h.mono hl)

lemma place {k : Nat} (hi : s.calls[k]? = some i) :
    ∃ f, s.frame? i = some f ∧ (s.scopes[k]? = some Scope.anonymous ↔ f.isAnonymous = true) := by
  obtain ⟨hlength, hget⟩ := forall₂_iff_get.mp h
  obtain ⟨hk, rfl⟩ := List.getElem?_eq_some_iff.mp hi
  obtain ⟨f, hf, hiff⟩ := hget k (hlength ▸ hk) hk
  refine ⟨f, hf, ?_⟩
  rw [← hiff, getElem?_eq_getElem (hlength ▸ hk), Option.some.injEq]
  rfl

lemma openAnonymous {c : Node} (hc : c.Named) : (s.openAnonymous c).Matched := by
  refine h.push (.openAnonymous hc) rfl rfl (f := { name := anonymousName, function := some c }) ?_ ?_
  · simp [Store.openAnonymous, Store.frame?]
  · simp [Frame.isAnonymous, Value.same_refl]

lemma entered (hs : s.Labelled) {name : Value} (hname : name.same anonymousName = false)
    (he : Entered (s.pushScope .defined) name i t) : t.Matched := by
  have hp : Labels s (s.pushScope .defined) := .of_eq rfl rfl
  obtain ⟨hcalls, hscopes⟩ := he.calls
  have hframe : ∃ f, t.frame? i = some f ∧ f.isAnonymous = false := by
    cases he with
    | @copy top f hcurrent =>
      refine ⟨{ f with parameters := [], arguments := [], caller := some top }, by simp [Store.frame?], ?_⟩
      have hsame := (same_of_current? hcurrent).2.2
      rw [Bool.eq_false_iff]
      intro hanonymous
      rw [Value.same_trans hsame hanonymous] at hname
      cases hname
    | own _ hplace =>
      obtain ⟨e, hmem, _, rfl⟩ := Registry.mem_of_get? hplace
      obtain ⟨f, hf, hanonymous⟩ := hs.place e hmem
      refine ⟨{ f with parameters := [], arguments := [], caller := s.calls.head? }, ?_, hanonymous⟩
      change (s.modifyFrame e.2 _).frame? e.2 = _
      rw [frame?_modifyFrame, if_pos rfl, hf]
      rfl
  obtain ⟨f, hf, hanonymous⟩ := hframe
  refine h.push (hp.trans (.entered he)) hcalls hscopes hf ?_
  simp [hanonymous]

end

end Store.Matched

section

variable {memoize : Bool} {n m : Node} {s t : Store} {K : Node → Store → Prop} {y : Symbol} {G : Meaning} {b : Binary}

lemma Node.Named.callee {name : Value} (h : n.Named) (hname : n.callee? = some name) :
    name.same anonymousName = false := by
  obtain ⟨callee, hcallee, c, hc, rfl⟩ := callee?_eq_some.mp hname
  exact ((h.child (mem_of_getElem? hcallee)).child (mem_of_getElem? hc)).value

lemma Enters.matched (h : Enters memoize (n, s) (m, t)) (hn : n.Named) (hs : s.Labelled) (hm : s.Matched) :
    t.Matched := by
  have hG : ∀ n s v t, (True ∧ Settles memoize n s (.ok v) t) → n.Named → s.Labelled → Labels s t :=
    fun _ _ _ _ h => stable_labels.settles h.2
  have hlevel : ∀ n s v t, (True ∧ Settles memoize n s (.ok v) t) → Level s t := fun _ _ _ _ h => h.2.level
  by_cases hc : n.IsCall
  · simp only [Enters] at h
    -- The record on top is matched when it is opened; arguments and body keep its name.
    obtain hk | hk := hc
    · rw [step_callAnonymous hk] at h
      obtain ⟨hf, ht⟩ | ⟨i, function, u, ho, h⟩ := visits_callAnonymous h
      · rw [ht]
        exact hm.openAnonymous (hn.child (mem_of_getElem? hf))
      obtain ⟨hlabels, hnamed⟩ := stable_labels.openAnonymous hG hn hk hs ho
      obtain ⟨hf, rfl, v, hv⟩ := runs_openAnonymous.mp ho
      have hopened : Labels s (s.openAnonymous function) := .openAnonymous hnamed
      have hu : u.Matched := (hm.openAnonymous hnamed).labels (hG _ _ _ _ hv hnamed (hopened.labelled hs))
        (hlevel _ _ _ _ hv)
      obtain ⟨_, rfl⟩ | hp := h
      · exact hu
      · exact hu.labels (stable_labels.passArguments hG hn hnamed (hlabels.labelled hs) hp).1
          (level_passArguments hlevel hp)
    · rw [step_callDefined hk] at h
      obtain h | ⟨name, i, function, u, ho, h⟩ := visits_callDefined h
      · obtain ⟨name, i, f, hname, he, _⟩ := visits_openDefined.mp h
        exact hm.entered hs (hn.callee hname) he
      obtain ⟨hlabels, hnamed⟩ := stable_labels.openDefined hG hs ho
      obtain ⟨hname, w, f, v, he, hf, hfun, hv⟩ := runs_openDefined.mp ho
      have hp : Labels s (s.pushScope .defined) := .of_eq rfl rfl
      have hw := (hp.trans (.entered he)).labelled hs
      have hu : u.Matched := (hm.entered hs (hn.callee hname) he).labels (hG _ _ _ _ hv hnamed hw) (hlevel _ _ _ _ hv)
      obtain ⟨_, rfl⟩ | hp := h
      · exact hu
      · exact hu.labels (stable_labels.passArguments hG hn hnamed (hlabels.labelled hs) hp).1
          (level_passArguments hlevel hp)
  · exact hm.labels (stable_labels.enters h hn hs).2 (h.level hc)

def Kind.symbol? : Kind → Option Symbol
  | .operands => some .expressions
  | .arguments => some .arguments
  | .parameters => some .parameters
  | .parameterList => some .references
  | _ => none

lemma Kind.symbol?_mem {k : Kind} (h : k.symbol? = some y) :
    y ∈ [Symbol.expressions, .arguments, .parameters, .references] := by
  cases k <;> simp_all [symbol?]

lemma Tree.symbol_eq {x : Symbol} (h : Tree x n) (hy : n.kind.symbol? = some y) : x = y := by
  induction h with
  | ofReference _ ih | ofFunction _ ih | ofExpression _ ih | statement _ ih | lastStatement _ ih =>
    obtain rfl := ih hy
    exact absurd (Kind.symbol?_mem hy) (by decide)
  | _ => simp_all [Node.kind, Kind.symbol?]

lemma Node.IsTree.part_kind (h : n.IsTree) (hm : n.Part m) (hy : m.kind.symbol? = some y) :
    m ∈ n.children ∧ y ∈ n.kind.parts := by
  obtain hm | ⟨_, c, hc, hk, hm⟩ := hm
  · obtain ⟨x, hx, ht⟩ := h.part_symbol hm
    exact ⟨hm, ht.symbol_eq hy ▸ hx⟩
  · -- The one part of an argument is an expression, which stands for none of these symbols.
    obtain ⟨x, hx, ht⟩ := (h.child hc).part_symbol hm
    have hmem := Kind.symbol?_mem hy
    rw [hk, ht.symbol_eq hy] at hx
    obtain rfl := mem_singleton.mp hx
    exact absurd hmem (by decide)

lemma Enters.part (h : Enters memoize (n, s) (m, t)) (hn : ¬ n.IsCall) : n.Part m := by
  have hk : Eval.Keeps n.Part Level (Eval.step memoize n) :=
    Eval.keeps_step (fun _ _ _ => Level.trans) (fun _ _ => Plain.level) (fun _ _ h => h.1) hn
  exact ((hk s s ⟨rfl, rfl⟩).visits (fun _ _ _ _ _ hu _ hm => hu.trans hm.level) h).1

lemma Enters.parent (h : Enters memoize (n, s) (m, t)) (ht : n.IsTree) (hs : s.Proper) (hy : m.kind.symbol? = some y) :
    n.IsCall ∧ y = .arguments ∨ ¬ n.IsCall ∧ m ∈ n.children ∧ y ∈ n.kind.parts := by
  by_cases hn : n.IsCall
  · refine .inl ⟨hn, ?_⟩
    obtain hf | ⟨o, rfl, _⟩ | hbody := h.of_call ht hs hn
    · cases hf with
      | function => simp [Node.kind, Kind.symbol?] at hy
    · exact (((ht.inner_of_call hn).call_arguments hn o.arguments_eq).symbol_eq hy).symm
    · simp [hbody, Kind.symbol?] at hy
  · exact .inr ⟨hn, ht.part_kind (h.part hn) hy⟩

lemma Node.IsTree.eq_binary (h : n.IsTree) (hk : n.kind = .binary b) : ∃ v id x y,
    n = .mk (.binary b) v id [x, y] ∧ Tree .expression x ∧ (Tree .expression y ∨ b.IsVariadic ∧ Tree .expressions y) := by
  obtain ⟨x, h⟩ := h
  induction h with
  | ofReference _ ih | ofFunction _ ih | ofExpression _ ih | statement _ ih | lastStatement _ ih => exact ih hk
  | binary h h' =>
    cases hk
    exact ⟨_, _, _, _, rfl, h, .inl h'⟩
  | variadic hb h h' =>
    cases hk
    exact ⟨_, _, _, _, rfl, h, .inr ⟨hb, h'⟩⟩
  | _ => cases hk

lemma Node.IsTree.eq_operands (h : n.IsTree) (hk : n.kind = .operands) : ∃ v id x y,
    n = .mk .operands v id [x, y] ∧ Tree .expression x := by
  obtain ⟨x, h⟩ := h
  induction h with
  | ofReference _ ih | ofFunction _ ih | ofExpression _ ih | statement _ ih | lastStatement _ ih => exact ih hk
  | operands h h' => exact ⟨_, _, _, _, rfl, h⟩
  | _ => cases hk

lemma Tree.kind_ne_operands (h : Tree .expression n) : n.kind ≠ .operands := by
  intro hk
  cases h.symbol_eq (y := .expressions) (by rw [hk]; rfl)

lemma Eval.not_visits_popOperator : ¬ (popOperator s).Visits G K m t := by
  cases hs : s.operators <;> simp [popOperator, hs, fail, Course.andThen]

lemma Eval.visits_binary {x y : Node} (hx : n.children[0]? = some x) (hy : n.children[1]? = some y)
    (h : (binary b n s).Visits G K m t) : m = x ∨ m = y ∧ ∃ u, G x (s.pushOperator (.binary b)) (.ok u) t := by
  simp only [binary, visits_bind, modify_apply, pure_apply, Course.visits_done, not_visits_child, visits_visit_iff,
    (constant_checkSameType _ _).reads.not_visits, (constant_ofExcept _).reads.not_visits, not_visits_popOperator,
    Course.runs_done, runs_child, runs_visit_ok, hx, hy, Option.some.injEq, false_or, and_false, exists_false, or_false] at h
  obtain ⟨_, _, ⟨_, rfl⟩, _, _, ⟨rfl, rfl⟩, ⟨rfl, _⟩ | ⟨u, s', ⟨_, hu⟩, _, _, ⟨rfl, rfl⟩, rfl, rfl⟩⟩ := h
  · exact .inl rfl
  · exact .inr ⟨rfl, u, hu⟩

lemma Eval.visits_operands {x y : Node} (hx : n.children[0]? = some x) (hy : n.children[1]? = some y)
    (h : (operands n s).Visits G K m t) : m = x ∨ m = y ∧ ∃ u, G x s (.ok u) t := by
  simp only [operands, visits_bind, not_visits_child, reads_operator.not_visits, visits_visit_iff, runs_child,
    runs_visit_ok, runs_operator, hx, Option.some.injEq, false_or] at h
  obtain ⟨_, _, ⟨rfl, rfl⟩, ⟨rfl, _⟩ | ⟨u, _, ⟨_, hu⟩, o, s', ⟨_, rfl⟩, hrest⟩⟩ := h
  · exact .inl rfl
  have hvisits : (combineRest n u s').Visits G K m t → m = y ∧ t = s' := by
    simp only [combineRest, visits_bind, not_visits_child, visits_visit_iff, runs_child,
      (constant_checkSameType _ _).reads.not_visits, reads_operator.not_visits,
      (constant_combined _ _ _).reads.not_visits, hy, Option.some.injEq, false_or, and_false, exists_false, or_false]
    rintro ⟨_, _, ⟨rfl, rfl⟩, rfl, rfl⟩
    exact ⟨rfl, rfl⟩
  cases o with
  | not => exact (((constant_checkBool u).bind fun _ => constant_pure _).reads.not_visits hrest).elim
  | binary b =>
    obtain ⟨rfl, rfl⟩ := hvisits hrest
    exact .inr ⟨rfl, u, hu⟩
  | other name =>
    obtain ⟨rfl, rfl⟩ := hvisits hrest
    exact .inr ⟨rfl, u, hu⟩

lemma Enters.operands (h : Enters memoize (n, s) (m, t)) (ht : n.IsTree) (hs : s.Proper) (hk : m.kind = .operands) :
    n.children[1]? = some m ∧ ((∃ b : Binary, b.IsVariadic ∧ n.kind = .binary b ∧ t.operators = .binary b :: s.operators) ∨
      n.kind = .operands ∧ t.operators = s.operators) := by
  obtain ⟨_, hy⟩ | ⟨_, _, hparts⟩ := h.parent ht hs (y := .expressions) (by rw [hk]; rfl)
  · cases hy
  have hkind : (∃ b, n.kind = .binary b) ∨ n.kind = .operands := by
    cases hn : n.kind <;> simp_all [Kind.parts]
  obtain ⟨b, hn⟩ | hn := hkind
  · obtain ⟨v, id, x, y, rfl, hx, hy⟩ := ht.eq_binary hn
    obtain rfl | ⟨rfl, u, hu⟩ := visits_binary rfl rfl h
    · exact (hx.kind_ne_operands hk).elim
    · obtain hy | ⟨hb, _⟩ := hy
      · exact (hy.kind_ne_operands hk).elim
      · exact ⟨rfl, .inl ⟨b, hb, rfl, hu.operators⟩⟩
  · obtain ⟨v, id, x, y, rfl, hx⟩ := ht.eq_operands hn
    obtain rfl | ⟨rfl, u, hu⟩ := visits_operands rfl rfl h
    · exact (hx.kind_ne_operands hk).elim
    · exact ⟨rfl, .inr ⟨rfl, hu.operators⟩⟩

lemma Node.IsTree.function (h : n.IsTree) (hk : n.kind = .function) : Tree .function n := by
  obtain ⟨x, h⟩ := h
  induction h with
  | ofReference _ ih | ofFunction _ ih | ofExpression _ ih | statement _ ih | lastStatement _ ih => exact ih hk
  | function h h' => exact .function h h'
  | _ => cases hk

end

inductive Node.Spine : Node → Node → Prop
  | here {m n} : m.children[1]? = some n → Spine m n
  | next {m k n} : Spine m k → k.kind = .operands → k.children[1]? = some n → Spine m n

def Governed (memoize : Bool) (p : Node) (c : Node × Store) : Prop :=
  ∃ (b : Binary) (m : Node) (u : Store), b.IsVariadic ∧ m.kind = .binary b ∧ m.Spine c.1 ∧
    Reaches memoize (p, {}) (m, u) ∧ Reaches memoize (m, u) c ∧ c.2.operators = .binary b :: u.operators

def Listed (memoize : Bool) (p : Node) (c : Node × Store) : Prop :=
  ∃ f names e u, Declared names e f ∧ names ≠ [] ∧ Reaches memoize (p, {}) (f, u) ∧ Reaches memoize (f, u) c ∧
    c.2.calls = u.calls

inductive Blamed (memoize : Bool) (p n : Node) (s : Store) : Fault → Store → Prop
  | operand {e t} : Running.isTypeFault e = true → Blamed memoize p n s e t
  | zeroDivision {t} : n.kind = .binary .divide → Blamed memoize p n s .divisionByZero t
  | zeroModulo {t} : n.kind = .binary .modulo → Blamed memoize p n s .moduloByZero t
  | unboundVariable {c w} : n.Has .reference [c] → c.value = .text w → s.look (.text w) = none →
      Blamed memoize p n s (.missingKey (Text.quoted w)) s
  | unboundFunction {w t} : n.kind = .callDefined → n.callee? = some (.text w) → s.current? (.text w) = none →
      s.functions.get? ⟨.text w⟩ = none → Blamed memoize p n s (.missingKey (Text.quoted w)) t
  | longNumber {c m t} : n.Has .printNumber [c] → Settles memoize c s (.ok (.int m)) t →
      Text.exceedsDigitLimit m = true → Blamed memoize p n s .longNumber t
  | fewArguments {t} : n.IsCall → t.LacksArguments → Blamed memoize p n s .listRange t
  | bareFunction {t} : n.kind = .parameterList → Listed memoize p (n, s) → s.calls = [] →
      Blamed memoize p n s .listRange t

structure Guarded (memoize : Bool) (p : Node) (c : Node × Store) : Prop where
  regular : Regular c
  named : c.1.Named
  labelled : c.2.Labelled
  matched : c.2.Matched
  operands : c.1.kind = .operands → Governed memoize p c
  arguments : c.1.kind = .arguments → c.2.calls ≠ []
  parameters : c.1.kind = .parameters → ∃ f u, Reaches memoize (p, {}) (f, u) ∧ f.kind = .function ∧
    f.children[0]? = some c.1 ∧ Reaches memoize (f, u) c ∧ c.2.calls = u.calls
  parameterList : c.1.kind = .parameterList → Listed memoize p c

section

variable {memoize : Bool} {p n m : Node} {s t : Store}

lemma guarded_program (hp : Tree .statements p) (hn : p.Named) : Guarded memoize p (p, {}) where
  regular := regular_program hp
  named := hn
  labelled := ⟨fun i f hf => by simp [Store.frame?] at hf, fun e he => (not_mem_nil he).elim⟩
  matched := .nil
  operands hk := by cases hp.symbol_eq (y := .expressions) (by rw [hk]; rfl)
  arguments hk := by cases hp.symbol_eq (y := .arguments) (by rw [hk]; rfl)
  parameters hk := by cases hp.symbol_eq (y := .parameters) (by rw [hk]; rfl)
  parameterList hk := by cases hp.symbol_eq (y := .references) (by rw [hk]; rfl)

lemma Guarded.enters_operands (hc : Guarded memoize p (n, s)) (hr : Reaches memoize (p, {}) (n, s))
    (he : Enters memoize (n, s) (m, t)) (hk : m.kind = .operands) : Governed memoize p (m, t) := by
  obtain ⟨hchild, ⟨b, hb, hn, hoperators⟩ | ⟨hn, hoperators⟩⟩ := he.operands hc.regular.tree hc.regular.proper hk
  · exact ⟨b, n, s, hb, hn, .here hchild, hr, .single he, hoperators⟩
  · obtain ⟨b, k, u, hb, hkind, hspine, hk, hreach, hops⟩ := hc.operands hn
    exact ⟨b, k, u, hb, hkind, .next hspine hn hchild, hk, hreach.tail he, hoperators.trans hops⟩

lemma Guarded.enters_arguments (hc : Guarded memoize p (n, s)) (he : Enters memoize (n, s) (m, t))
    (hk : m.kind = .arguments) : t.calls ≠ [] := by
  obtain ⟨hn, _⟩ | ⟨hn, _, hparts⟩ := he.parent hc.regular.tree hc.regular.proper (y := .arguments) (by rw [hk]; rfl)
  · obtain ⟨i, _, hcalls, _⟩ := he.calls_of_call hn
    exact ne_nil_of_mem (hcalls ▸ mem_cons_self)
  · have hkind : n.kind = .arguments := by
      simp only [Node.IsCall, not_or] at hn
      cases hk : n.kind <;> simp_all [Kind.parts]
    have hcalls : t.calls = s.calls := (he.level hn).1
    rw [hcalls]
    exact hc.arguments hkind

lemma Guarded.enters_parameters (hc : Guarded memoize p (n, s)) (hr : Reaches memoize (p, {}) (n, s))
    (he : Enters memoize (n, s) (m, t)) (hk : m.kind = .parameters) : ∃ f u, Reaches memoize (p, {}) (f, u) ∧
      f.kind = .function ∧ f.children[0]? = some m ∧ Reaches memoize (f, u) (m, t) ∧ t.calls = u.calls := by
  obtain ⟨_, hy⟩ | ⟨hn, hm, hparts⟩ := he.parent hc.regular.tree hc.regular.proper (y := .parameters) (by rw [hk]; rfl)
  · cases hy
  have hkind : n.kind = .function := by
    cases hk : n.kind <;> simp_all [Kind.parts]
  refine ⟨n, s, hr, hkind, ?_, .single he, (he.level hn).1⟩
  cases hc.regular.tree.function hkind with
  | function _ hb =>
    obtain rfl | rfl := mem_pair.mp hm
    · rfl
    · cases hb with
      | body => cases hk

lemma Guarded.enters_parameterList (hp : Tree .statements p) (hc : Guarded memoize p (n, s))
    (he : Enters memoize (n, s) (m, t)) (hk : m.kind = .parameterList) : Listed memoize p (m, t) := by
  obtain ⟨_, hy⟩ | ⟨hn, hm, hparts⟩ := he.parent hc.regular.tree hc.regular.proper (y := .references) (by rw [hk]; rfl)
  · cases hy
  have hcalls : t.calls = s.calls := (he.level hn).1
  have hkind : n.kind = .parameters ∨ n.kind = .parameterList := by
    cases hk : n.kind <;> simp_all [Kind.parts]
  obtain hkind | hkind := hkind
  · obtain ⟨f, u, hf, hfunction, hchild, hreach, hlevel⟩ := hc.parameters hkind
    have htree := (hf.regular (regular_program hp)).tree.function hfunction
    obtain ⟨names, e, hd⟩ := htree.declared
    refine ⟨f, names, e, u, hd, ?_, hf, hreach.tail he, hcalls.trans hlevel⟩
    -- The node that was entered is the list of the function, and this has a first parameter.
    obtain ⟨hfn, hps, hl, _⟩ := hd
    rw [hfn.2] at hchild
    cases hchild
    rw [hps.2] at hm
    obtain rfl := mem_singleton.mp hm
    cases hl with
    | nil hnull =>
      rw [hnull.1] at hk
      cases hk
    | cons => simp
  · obtain ⟨f, names, e, u, hd, hne, hf, hreach, hlevel⟩ := hc.parameterList hkind
    exact ⟨f, names, e, u, hd, hne, hf, hreach.tail he, hcalls.trans hlevel⟩

lemma Guarded.enters (hp : Tree .statements p) (hc : Guarded memoize p (n, s)) (hr : Reaches memoize (p, {}) (n, s))
    (he : Enters memoize (n, s) (m, t)) : Guarded memoize p (m, t) where
  regular := he.regular hc.regular
  named := (stable_labels.enters he hc.named hc.labelled).1
  labelled := (stable_labels.enters he hc.named hc.labelled).2.labelled hc.labelled
  matched := he.matched hc.named hc.labelled hc.matched
  operands := hc.enters_operands hr he
  arguments := hc.enters_arguments he
  parameters := hc.enters_parameters hr he
  parameterList := hc.enters_parameterList hp he

lemma Reaches.guarded (hp : Tree .statements p) (hn : p.Named) {c : Node × Store} (hr : Reaches memoize (p, {}) c) :
    Guarded memoize p c := by
  induction hr with
  | refl => exact guarded_program hp hn
  | tail hr he ih => exact ih.enters hp hr he

lemma Guarded.blamed {e : Fault} (hc : Guarded memoize p (n, s))
    (h : (Eval.step memoize n s).Fails (Settles memoize) e t) : Blamed memoize p n s e t := by
  have hoperators : ∀ n s v t, Settles memoize n s (.ok v) t → t.operators = s.operators :=
    fun _ _ _ _ h => h.operators
  have hmismatch : e = .typeMismatch → Blamed memoize p n s e t := fun he => .operand (by rw [he]; rfl)
  obtain ⟨x, hx⟩ : n.IsTree := hc.regular.tree
  induction hx with
  | ofReference _ ih | ofFunction _ ih | ofExpression _ ih | statement _ ih | lastStatement _ ih =>
    exact ih hc h hmismatch
  | identifier | functionName | number | bool | noReferences | argument | noArguments =>
    exact (not_fails_pure h).elim
  | parameters | function =>
    obtain ⟨_, _, _, h⟩ := (fails_visitChild rfl).mp h
    exact (not_fails_pure h).elim
  | body | consequence | alternative => exact (not_fails_lastChild rfl h).elim
  | conditional => exact (not_fails_conditional rfl rfl rfl h).elim
  | statements => exact (not_fails_statements rfl rfl h).elim
  | variableDefinition hx =>
    cases hx with
    | reference => exact (not_fails_definition rfl rfl (.inl rfl) rfl h).elim
  | functionDefinition hx =>
    cases hx with
    | functionName => exact (not_fails_definition rfl rfl (.inr rfl) rfl h).elim
  | negation => exact hmismatch (fails_negation hoperators rfl h)
  | test => exact hmismatch (fails_test rfl h)
  | printBool => exact hmismatch (fails_printBool rfl h)
  | printNumber =>
    obtain he | ⟨m, hm, hlong, rfl⟩ := fails_printNumber rfl h
    · exact hmismatch he
    · exact .longNumber ⟨rfl, rfl⟩ hm hlong
  | binary | variadic =>
    obtain he | ⟨u, w, he⟩ := fails_binary hoperators rfl rfl h
    · exact hmismatch he
    obtain he | ⟨rfl, rfl⟩ | ⟨rfl, rfl⟩ := Binary.combine_error he
    · exact .operand he
    · exact .zeroDivision rfl
    · exact .zeroModulo rfl
  | operands =>
    obtain ⟨b, _, _, hb, _, _, _, _, hops⟩ := hc.operands rfl
    have hhead : s.operators.head? = some (.binary b) := by
      rw [show s.operators = _ from hops]
      rfl
    obtain he | ⟨u, w, he⟩ := fails_operands hoperators hhead rfl rfl h
    · exact hmismatch he
    obtain he | ⟨rfl, _⟩ | ⟨rfl, _⟩ := Binary.combine_error he
    · exact .operand he
    · exact absurd hb (by decide)
    · exact absurd hb (by decide)
  | reference hx =>
    cases hx with
    | @identifier w id =>
      have hstep : (Course.done (resolve (.text w) (s.look (.text w))) s).Fails (Settles memoize) e t := by
        rw [← lookupIn_eq hc.regular.aligned]
        exact h
      obtain ⟨he, rfl⟩ := Course.fails_done.mp hstep
      cases hlook : t.look (.text w) with
      | some v =>
        rw [hlook] at he
        cases he
      | none =>
        rw [hlook] at he
        cases he
        exact .unboundVariable ⟨rfl, rfl⟩ rfl hlook
  | references hx =>
    cases hx with
    | reference =>
      obtain ⟨rfl, hcalls⟩ := fails_parameterList rfl rfl rfl h
      exact .bareFunction rfl (hc.parameterList rfl) hcalls
  | arguments hx =>
    obtain ⟨i, is, hcalls⟩ := exists_cons_of_ne_nil (hc.arguments rfl)
    have hhead : s.calls.head? = some i := by
      rw [show s.calls = _ from hcalls]
      rfl
    cases hx with
    | argument => exact (not_fails_arguments rfl rfl rfl rfl hhead h).elim
  | callAnonymous =>
    obtain ⟨rfl, hlacks⟩ := fails_callAnonymous hc.regular rfl h
    exact .fewArguments (.inl rfl) hlacks
  | callDefined hf =>
    have hfun : ∀ i f, s.frame? i = some f → ∃ function, f.function = some function := by
      intro i f hf
      obtain ⟨c, hfunction, _⟩ := hc.labelled.function i f hf
      exact ⟨c, hfunction⟩
    obtain ⟨rfl, hlacks⟩ | ⟨name, hname, hcurrent, hmissing, rfl⟩ := fails_callDefined hc.regular rfl hfun h
    · exact .fewArguments (.inr rfl) hlacks
    · cases hf with
      | functionName hx =>
        cases hx with
        | identifier =>
          cases hname
          exact .unboundFunction rfl rfl hcurrent hmissing

end

end LispKit.Lisp
