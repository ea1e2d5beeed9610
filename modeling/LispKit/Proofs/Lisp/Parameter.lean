import LispKit.Proofs.Lisp.Lookup
import LispKit.Proofs.Lisp.Trace

/-! Parameters in the body of a function: what they are found to be, against the arguments of the call. -/

namespace LispKit.Lisp

open List Eval Store

inductive Passes (memoize : Bool) (i : Nat) : Node → Store → List Value → Store → Prop
  | nil {n s} : n.Has .null [] → Passes memoize i n s [] s
  | cons {n a e rest s t u v vs} : n.Has .arguments [a, rest] → a.Has .argument [e] →
      Settles memoize e s (.ok v) t → Passes memoize i rest (t.addArgument i v) vs u →
      Passes memoize i n s (v :: vs) u

section

variable {memoize : Bool} {i : Nat} {n a e rest : Node} {s t : Store} {v : Value} {values : List Value}

lemma step_arguments (hn : n.Has .arguments [a, rest]) (ha : a.Has .argument [e]) (hi : s.calls.head? = some i) :
    Eval.step memoize n s = .visit e s fun v t =>
      (Eval.visitRest .arguments rest (t.addArgument i v)).andThen fun _ u => .done (.ok .nothing) u := by
  obtain ⟨_, _, rfl⟩ := hn.eq_mk
  obtain ⟨_, _, rfl⟩ := ha.eq_mk
  obtain ⟨is, hs⟩ := head?_eq_some_iff.mp hi
  obtain ⟨_, _, _, calls, _, _, _, _⟩ := s
  obtain rfl : calls = i :: is := hs
  rfl

lemma enters_argument (hn : n.Has .arguments [a, rest]) (ha : a.Has .argument [e])
    (hi : s.calls.head? = some i) : Enters memoize (n, s) (e, s) := by
  rw [Enters, step_arguments hn ha hi]
  exact .here

lemma enters_arguments (hn : n.Has .arguments [a, rest]) (ha : a.Has .argument [e])
    (hi : s.calls.head? = some i) (hv : Settles memoize e s (.ok v) t) (hrest : rest.kind = .arguments) :
    Enters memoize (n, s) (rest, t.addArgument i v) := by
  rw [Enters, step_arguments hn ha hi]
  refine .later trivial hv ?_
  rw [Eval.visitRest, if_pos hrest]
  exact .here

lemma Passes.settles (h : Passes memoize i n s values t) (hi : s.calls.head? = some i) :
    Settles memoize n s (.ok .nothing) t := by
  induction h with
  | nil hn => exact .null hn.1
  | @cons n a e rest s t u v vs hn ha hv hrest ih =>
    have ht : (t.addArgument i v).calls.head? = some i := by
      rw [← hi, ← hv.level.1]
      rfl
    refine .of_runs ?_
    rw [Eval.step, hn.1]
    refine (runs_arguments (by rw [hn.2]; rfl) (by rw [hn.2]; rfl) ha.1).mpr
      ⟨rfl, i, e, v, t, hi, by rw [ha.2]; rfl, hv, ?_⟩
    cases hrest with
    | nil hrest => rw [if_neg (by simp [hrest.1])]
    | cons hrest =>
      rw [if_pos hrest.1]
      exact ⟨.nothing, ih ht⟩

lemma Settles.passes (h : Settles memoize n s (.ok v) t) (hn : Tree .arguments n) (hi : s.calls.head? = some i) :
    ∃ values, Passes memoize i n s values t := by
  generalize hx : Symbol.arguments = x at hn
  induction hn generalizing s v with
  | noArguments =>
    obtain ⟨_, rfl⟩ := h.unique (.null rfl)
    exact ⟨[], .nil ⟨rfl, rfl⟩⟩
  | @arguments _ _ a rest ha hrest _ ih =>
    cases ha with
    | @argument _ _ e =>
      obtain ⟨_, j, e', w, u, hj, he, hw, hend⟩ := (runs_arguments rfl rfl rfl).mp
        (settles_iff.mp h).2
      cases he
      obtain rfl : i = j := Option.some.inj (hi.symm.trans hj)
      have hu : (u.addArgument i w).calls.head? = some i := by
        rw [← hi, ← hw.level.1]
        rfl
      split at hend
      · obtain ⟨_, hv⟩ := hend
        obtain ⟨values, hvalues⟩ := ih hv hu rfl
        exact ⟨w :: values, .cons ⟨rfl, rfl⟩ ⟨rfl, rfl⟩ hw hvalues⟩
      · rename_i hk
        cases hrest with
        | noArguments =>
          rw [hend]
          exact ⟨[w], .cons ⟨rfl, rfl⟩ ⟨rfl, rfl⟩ hw (.nil ⟨rfl, rfl⟩)⟩
        | arguments => exact (hk rfl).elim
  | _ => cases hx

lemma Passes.frame {f : Frame} (h : Passes memoize i n s values t) (hn : n.IsInner)
    (hq : Quiet memoize i (n, s)) (hi : s.calls.head? = some i) (hf : s.frame? i = some f) :
    ∃ g, t.frame? i = some g ∧ f.Retains False g ∧ g.arguments = f.arguments ++ values := by
  induction h generalizing f with
  | nil => exact ⟨f, hf, .refl _ f, by simp⟩
  | @cons n a e rest s t u v vs hnode ha hv hrest ih =>
    have hinner : a.IsInner := hn.child (by simp [hnode.2])
    have he : e.IsInner := hinner.child (by simp [ha.2])
    have hkind : e.kind ≠ .arguments := by
      refine hinner.kind_of_child ?_ (by simp [ha.1]) (by simp [ha.2])
      simp [Node.IsCall, ha.1]
    obtain ⟨_, hret⟩ := hv.retained he (lt_of_frame? hf) (hq.enters (enters_argument hnode ha hi))
    obtain ⟨g, hg, hfg⟩ := hret f hf
    have hg' : (t.addArgument i v).frame? i = some { g with arguments := g.arguments ++ [v] } := by
      rw [Store.addArgument, frame?_modifyFrame, if_pos rfl, hg]
      rfl
    have hfg' : f.Retains False { g with arguments := g.arguments ++ [v] } :=
      ⟨hfg.bindings, hfg.caller, hfg.parameters, False.elim⟩
    have hargs : g.arguments = f.arguments := hfg.arguments hkind
    cases hrest with
    | nil => exact ⟨_, hg', hfg', by simp [hargs]⟩
    | cons hrest =>
      have ht : (t.addArgument i v).calls.head? = some i := by
        rw [← hi, ← hv.level.1]
        rfl
      obtain ⟨k, hk, hgk, harguments⟩ := ih (hn.child (by simp [hnode.2]))
        (hq.enters (enters_arguments hnode ha hi hv hrest.1)) ht hg'
      exact ⟨k, hk, hfg'.trans hgk, by simp [harguments, hargs]⟩

end

lemma Tree.declares {n : Node} (h : Tree .references n) : ∃ names, Declares names n := by
  generalize hx : Symbol.references = x at h
  induction h with
  | noReferences => exact ⟨[], .nil ⟨rfl, rfl⟩⟩
  | references h _ _ ih =>
    obtain ⟨names, hnames⟩ := ih rfl
    cases h with
    | @reference _ _ c => exact ⟨c.value :: names, .cons ⟨rfl, rfl⟩ ⟨rfl, rfl⟩ hnames⟩
  | _ => cases hx

lemma Tree.declared {n : Node} (h : Tree .function n) : ∃ names e, Declared names e n := by
  cases h with
  | function hps hb =>
    cases hps with
    | parameters h =>
      obtain ⟨names, hnames⟩ := h.declares
      cases hb with
      | body => exact ⟨names, _, .mk ⟨rfl, rfl⟩ ⟨rfl, rfl⟩ hnames ⟨rfl, rfl⟩⟩

lemma Declares.text {names : List Value} {n : Node} (h : Declares names n) (ht : Tree .references n) :
    ∀ x ∈ names, ∃ w, x = .text w := by
  induction h with
  | nil => simp
  | cons hn hx _ ih =>
    obtain ⟨_, _, rfl⟩ := hn.eq_mk
    obtain ⟨_, _, rfl⟩ := hx.eq_mk
    cases ht with
    | references hx hrest =>
      cases hx with
      | reference hc =>
        cases hc with
        | identifier => exact forall_mem_cons.mpr ⟨⟨_, rfl⟩, ih hrest⟩

lemma Declared.text {names : List Value} {e fn : Node} (h : Declared names e fn) (ht : Tree .function fn) :
    ∀ x ∈ names, ∃ w, x = .text w := by
  obtain ⟨hn, hps, hl, _⟩ := h
  obtain ⟨_, _, rfl⟩ := hn.eq_mk
  obtain ⟨_, _, rfl⟩ := hps.eq_mk
  cases ht with
  | function hps _ =>
    cases hps with
    | parameters h => exact hl.text h

lemma same_eq_false {x y : Value} (hx : ∃ w, x = .text w) (h : x ≠ y) : x.same y = false := by
  obtain ⟨w, rfl⟩ := hx
  rw [Bool.eq_false_iff]
  intro hs
  exact h ((Value.same_iff.mp hs).2 rfl)

section

variable {names values : List Value} {x v : Value} {r : Registry Key Value}

lemma get?_bind_of_not_mem (hn : ∀ y ∈ names, ∃ w, y = .text w) (hx : x ∉ names) :
    ((names.zip values).foldl (fun b e => b.insert ⟨e.1⟩ e.2) r).get? ⟨x⟩ = r.get? ⟨x⟩ := by
  induction names generalizing values r with
  | nil => rfl
  | cons y names ih =>
    obtain ⟨hy, hn⟩ := forall_mem_cons.mp hn
    rw [mem_cons, not_or] at hx
    cases values with
    | nil => rfl
    | cons w values =>
      rw [zip_cons_cons, foldl_cons, ih hn hx.2]
      exact Registry.get?_insert_of_ne r w (same_eq_false hy fun h => hx.1 h.symm)

lemma get?_bind {k : Nat} (hn : ∀ y ∈ names, ∃ w, y = .text w) (hnodup : names.Nodup)
    (hx : names[k]? = some x) (hv : values[k]? = some v) :
    ((names.zip values).foldl (fun b e => b.insert ⟨e.1⟩ e.2) r).get? ⟨x⟩ = some v := by
  induction names generalizing values r k with
  | nil => simp at hx
  | cons y names ih =>
    obtain ⟨hy, hn⟩ := forall_mem_cons.mp hn
    rw [nodup_cons] at hnodup
    cases values with
    | nil => simp at hv
    | cons w values =>
      rw [zip_cons_cons, foldl_cons]
      cases k with
      | zero =>
        simp only [getElem?_cons_zero, Option.some.injEq] at hx hv
        subst hx hv
        rw [get?_bind_of_not_mem hn hnodup.1]
        exact Registry.get?_insert_self r _ _
      | succ k => exact ih hn hnodup.2 (by simpa using hx) (by simpa using hv)

end

namespace Eval

variable {memoize : Bool} {n e function : Node} {s t : Store} {name : Value} {i : Nat} {names : List Value}

lemma eq_openDefined (h : (openDefined n s).Runs (Settles memoize) (.ok (name, i, function)) t)
    (hd : Declared names e function) : n.callee? = some name ∧
      ∃ u f, Entered (s.pushScope .defined) name i u ∧ u.frame? i = some f ∧ t = u.addParameters i names := by
  obtain ⟨hn, u, f, v, he, hf, _, hv⟩ := runs_openDefined.mp h
  have hi : u.calls.head? = some i := by rw [he.calls.1]; rfl
  exact ⟨hn, u, f, he, hf, (hv.unique (hd.settles hi)).2⟩

lemma frame_openDefined (h : (openDefined n s).Runs (Settles memoize) (.ok (name, i, function)) t)
    (hd : Declared names e function) : ∃ g, s.template name = some g ∧
      t.frame? i = some { g with parameters := names, arguments := [], caller := s.calls.head? } := by
  obtain ⟨_, u, f, he, hf, rfl⟩ := eq_openDefined h hd
  obtain ⟨g, hg, rfl⟩ := he.frame hf
  refine ⟨g, hg, ?_⟩
  rw [Store.addParameters, frame?_modifyFrame, if_pos rfl, hf]
  rfl

end Eval

lemma Tree.body_of_function {function m : Node} (hf : Tree .function function)
    (hm : function.children[1]? = some m) : m.kind = .body := by
  cases hf with
  | function _ hb =>
    cases hm
    cases hb
    rfl

lemma Enters.of_callDefined {memoize : Bool} {n m : Node} {s t : Store} (h : Enters memoize (n, s) (m, t))
    (hs : s.Proper) (hk : n.kind = .callDefined) : Tree .function m ∨ ∃ name i function u,
      (Eval.openDefined n s).Runs (Settles memoize) (.ok (name, i, function)) u ∧ Tree .function function ∧
        ((n.children[1]? = some m ∧ t = u) ∨
          ((Eval.passArguments n i function u).Runs (Settles memoize) (.ok m) t ∧ m.kind = .body)) := by
  rw [Enters, step_callDefined hk] at h
  obtain h | ⟨name, i, function, u, ho, h⟩ := visits_callDefined h
  · obtain ⟨_, i, f, _, he, hf, hfun⟩ := visits_openDefined.mp h
    have hp : Extends s (s.pushScope .defined) := .calls _ _
    exact .inl (((hp.trans he.extends).proper hs).function i f m hf hfun)
  · replace ho := ho.mono fun _ _ _ _ h => h.2
    have hf := function_openDefined hs ho
    refine .inr ⟨name, i, function, u, ho, hf, h.imp id fun hp => ?_⟩
    replace hp := hp.mono fun _ _ _ _ h => h.2
    exact ⟨hp, hf.body_of_function (runs_passArguments.mp hp).1⟩

/-- A call of a defined function that comes to its body: its record, the names of its parameters, the values
of its arguments and the stores in which arguments and body are evaluated. -/
structure Activation (memoize : Bool) (n : Node) (s : Store) where
  name : Value
  place : Nat
  function : Node
  names : List Value
  expression : Node
  arguments : Node
  opened : Store
  values : List Value
  passed : Store
  body : Node
  entered : Store
  kind_eq : n.kind = .callDefined
  opens : (Eval.openDefined n s).Runs (Settles memoize) (.ok (name, place, function)) opened
  declares : Declared names expression function
  arguments_eq : n.children[1]? = some arguments
  passes : Passes memoize place arguments opened values passed
  enters : (Eval.passArguments n place function opened).Runs (Settles memoize) (.ok body) entered

namespace Activation

variable {memoize : Bool} {n b : Node} {s w : Store} (a : Activation memoize n s)

lemma calls_opened : a.opened.calls = a.place :: s.calls ∧ a.opened.scopes = .defined :: s.scopes :=
  calls_openDefined settles_level a.opens

lemma frame_opened : ∃ g, s.template a.name = some g ∧ a.opened.frame? a.place =
    some { g with parameters := a.names, arguments := [], caller := s.calls.head? } :=
  frame_openDefined a.opens a.declares

lemma entered_eq : a.entered = a.passed.modifyFrame a.place Frame.bound ∧
    ∃ f, a.passed.frame? a.place = some f ∧ f.parameters.length ≤ f.arguments.length := by
  obtain ⟨_, args, v, y, hargs, hv, f, hf, hle, heq⟩ := runs_passArguments.mp a.enters
  obtain rfl : a.arguments = args := Option.some.inj (a.arguments_eq.symm.trans hargs)
  have hi : a.opened.calls.head? = some a.place := by rw [a.calls_opened.1]; rfl
  obtain ⟨_, rfl⟩ := hv.unique (a.passes.settles hi)
  exact ⟨heq, f, hf, hle⟩

lemma frame_bound (hn : n.IsInner) (hq : Quiet memoize a.place (a.arguments, a.opened)) :
    ∃ f : Frame, a.entered.frame? a.place = some f.bound ∧ f.arguments = a.values ∧ f.caller = s.calls.head? ∧
      a.names <+: f.parameters ∧ f.parameters.length ≤ f.arguments.length := by
  obtain ⟨hentered, f, hf, hle⟩ := a.entered_eq
  obtain ⟨g, _, hg⟩ := a.frame_opened
  have hi : a.opened.calls.head? = some a.place := by rw [a.calls_opened.1]; rfl
  have hargs : a.arguments.IsInner := hn.child (mem_of_getElem? a.arguments_eq)
  obtain ⟨f', hf', hret, harguments⟩ := a.passes.frame hargs hq hi hg
  obtain rfl : f' = f := Option.some.inj (hf'.symm.trans hf)
  refine ⟨f', ?_, harguments, hret.caller, hret.parameters, hle⟩
  rw [hentered, frame?_modifyFrame, if_pos rfl, hf]
  rfl

lemma frame_entered (hn : n.IsInner) (hs : s.Proper) (hnodup : a.names.Nodup)
    (hlen : a.values.length = a.names.length) (hq : Quiet memoize a.place (a.arguments, a.opened)) :
    ∃ f, a.entered.frame? a.place = some f ∧ f.parameters = a.names ∧ f.caller = s.calls.head? ∧
      ∀ (k : Nat) (x v : Value), a.names[k]? = some x → a.values[k]? = some v → f.bindings.get? ⟨x⟩ = some v := by
  obtain ⟨f, hf, harguments, hcaller, hnames, hle⟩ := a.frame_bound hn hq
  -- Functions among the arguments may have added parameters, but then there are too few arguments to bind.
  have hps : f.parameters = a.names := (hnames.eq_of_length_le (by rwa [harguments, hlen] at hle)).symm
  have hfun : Tree .function a.function := function_openDefined hs a.opens
  refine ⟨f.bound, hf, hps, hcaller, fun k x v hx hv => ?_⟩
  rw [Frame.bound, hps, harguments]
  exact get?_bind (a.declares.text hfun) hnodup hx hv

/-- No call takes the record from when the arguments are evaluated until a use of a parameter. -/
def Undisturbed (m : Node) (u : Store) : Prop :=
  Quiet memoize a.place (a.arguments, a.opened) ∧
    Path memoize (Quiet memoize a.place) (a.body, a.entered) (m, u)

lemma level_entered : a.entered.calls = a.place :: s.calls ∧ a.entered.scopes = .defined :: s.scopes := by
  obtain ⟨hcalls, hscopes⟩ := level_passArguments settles_level a.enters
  exact ⟨hcalls.trans a.calls_opened.1, hscopes.trans a.calls_opened.2⟩

lemma body_inner (hn : n.IsInner) (hs : s.Proper) : a.body.IsInner := by
  obtain ⟨hu, hf⟩ := stable_extends.openDefined settles_extends hs a.opens
  exact (stable_extends.passArguments settles_extends hn hf (hu.proper hs) a.enters).2

lemma regular_entered (h : Regular (n, s)) (hn : n.IsInner) : Regular (a.body, a.entered) := by
  obtain ⟨hu, hf⟩ := stable_extends.openDefined settles_extends h.proper a.opens
  obtain ⟨hw, x, _, hx⟩ := stable_extends.passArguments settles_extends hn hf (hu.proper h.proper) a.enters
  have hplace := place_openDefined settles_extends h.proper a.opens
  obtain ⟨hcalls, hscopes⟩ := a.level_entered
  refine ⟨⟨x, hx⟩, (hu.trans hw).proper h.proper, ?_, ?_, ?_⟩
  · rw [hcalls, hscopes, length_cons, length_cons, h.aligned.length]
  · rw [hscopes]
    exact forall_mem_cons.mpr ⟨.inr rfl, h.aligned.scope⟩
  · rw [hcalls]
    exact forall_mem_cons.mpr ⟨Nat.lt_of_lt_of_le hplace hw.size,
      fun i hi => Nat.lt_of_lt_of_le (h.aligned.live i hi) (hu.trans hw).size⟩

lemma of_prepare {name : Value} {i : Nat} (h : Regular (n, s)) (hk : n.kind = .callDefined)
    (hp : (Eval.prepare n s).Runs (Settles memoize) (.ok (name, i, b)) w) :
    ∃ a : Activation memoize n s, a.name = name ∧ a.place = i ∧ a.body = b ∧ a.entered = w := by
  have hn : n.IsInner := h.tree.inner_of_call (.inr hk)
  obtain ⟨function, u, ho, hp⟩ := runs_prepare.mp hp
  have hf := function_openDefined h.proper ho
  obtain ⟨names, e, hd⟩ := hf.declared
  obtain ⟨_, args, v, y, hargs, hv, _⟩ := runs_passArguments.mp hp
  have hi : u.calls.head? = some i := by
    rw [(calls_openDefined settles_level ho).1]
    rfl
  obtain ⟨values, hvalues⟩ := hv.passes (hn.call_arguments (.inr hk) hargs) hi
  exact ⟨⟨name, i, function, names, e, args, u, values, y, b, w, hk, ho, hd, hargs, hvalues, hp⟩, rfl, rfl, rfl, rfl⟩

lemma of_enters (h : Regular (n, s)) (hk : n.kind = .callDefined) (he : Enters memoize (n, s) (b, w))
    (hb : b.kind = .body) : ∃ a : Activation memoize n s, a.body = b ∧ a.entered = w := by
  have hn : n.IsInner := h.tree.inner_of_call (.inr hk)
  obtain hf | ⟨name, i, function, u, ho, hf, ⟨hargs, _⟩ | ⟨hp, _⟩⟩ := he.of_callDefined h.proper hk
  · cases hf with
    | function => cases hb
  · cases hn.call_arguments (.inr hk) hargs with
    | noArguments | arguments => cases hb
  · obtain ⟨a, _, _, hbody, hentered⟩ := of_prepare h hk (runs_prepare.mpr ⟨function, u, ho, hp⟩)
    exact ⟨a, hbody, hentered⟩

lemma enters_body {f : Frame} (hf : a.entered.frame? a.place = some f)
    (hmiss : (if memoize then a.entered.memo.get? ⟨a.name, f.arguments⟩ else none) = none) :
    Enters memoize (n, s) (a.body, a.entered) := by
  have hp : (Eval.prepare n s).Runs (Settles memoize) (.ok (a.name, a.place, a.body)) a.entered :=
    runs_prepare.mpr ⟨_, _, a.opens, a.enters⟩
  rw [Enters, step_callDefined a.kind_eq]
  refine hp.visits_after (Course.visits_andThen.mpr (.inl ?_))
  rw [answer_apply hf, hmiss]
  exact .here

lemma frame_use {m : Node} {u : Store} (hn : n.IsInner) (hs : s.Proper) (hnodup : a.names.Nodup)
    (hlen : a.values.length = a.names.length) (hu : a.Undisturbed m u) (hcalls : u.calls = a.entered.calls) :
    u.scopes = a.entered.scopes ∧ ∃ g, u.frame? a.place = some g ∧ a.names <+: g.parameters ∧ g.caller = s.calls.head? ∧
      ∀ (k : Nat) (x v : Value), a.names[k]? = some x → a.values[k]? = some v → g.bindings.get? ⟨x⟩ = some v := by
  obtain ⟨f, hf, hps, hcaller, hbindings⟩ := a.frame_entered hn hs hnodup hlen hu.1
  obtain hlt | ⟨hlevel, hret, _⟩ := hu.2.retained (a.body_inner hn hs) (lt_of_frame? hf)
  · rw [hcalls] at hlt
    exact (Nat.lt_irrefl _ hlt).elim
  · obtain ⟨g, hg, hfg⟩ := hret.2 f hf
    exact ⟨hlevel.2, g, hg, hps ▸ hfg.parameters, hfg.caller.trans hcaller, by rw [hfg.bindings]; exact hbindings⟩

end Activation

lemma Frame.binding?_or_eq_some {f : Frame} {callers others : Option Value} {x v : Value}
    (hps : f.parameters ≠ []) (hv : f.bindings.get? ⟨x⟩ = some v) :
    (f.binding? callers x).or others = some v ↔ f.parameters.length = 1 ∨ ∀ b, callers = some b → b = v := by
  unfold Frame.binding?
  split
  · rename_i h
    exact (hps (length_eq_zero_iff.mp h)).elim
  · rename_i h
    simp [hv, h]
  · rename_i h₀ h₁
    cases callers with
    | none => simp [hv]
    | some b => simpa using fun h => (h₁ h).elim

def Store.openOwn (s : Store) (i : Nat) (names : List Value) : Store :=
  { s.modifyFrame i fun f => { f with parameters := names, arguments := [], caller := s.calls.head? } with
    scopes := .defined :: s.scopes
    calls := i :: s.calls }

def Store.addNumbers (s : Store) (i : Nat) (ms : List Int) : Store :=
  ms.foldl (fun t m => t.addArgument i (.int m)) s

section

variable {memoize : Bool} {f : String} {xs : List String} {ms : List Int} {e : Node} {s : Store} {i : Nat}
  {g : Frame}

lemma passes_numbers : Passes memoize i (.arguments (ms.map .number)) s (ms.map .int) (s.addNumbers i ms) := by
  induction ms generalizing s with
  | nil => exact .nil ⟨rfl, rfl⟩
  | cons m ms ih => exact .cons ⟨rfl, rfl⟩ ⟨rfl, rfl⟩ (.literal (n := .number m) (.inl rfl)) ih

lemma frame?_addNumbers (hg : s.frame? i = some g) :
    (s.addNumbers i ms).frame? i = some { g with arguments := g.arguments ++ ms.map .int } := by
  induction ms generalizing s g with
  | nil => simp [Store.addNumbers, hg]
  | cons m ms ih =>
    have hm : (s.addArgument i (.int m)).frame? i = some { g with arguments := g.arguments ++ [.int m] } := by
      rw [Store.addArgument, frame?_modifyFrame, if_pos rfl, hg]
      rfl
    have h := ih hm
    simp only [append_assoc, singleton_append] at h
    exact h

lemma frame?_openOwn (names : List Value) (hg : s.frame? i = some g) : (s.openOwn i names).frame? i =
    some { g with parameters := names, arguments := [], caller := s.calls.head? } := by
  change (s.modifyFrame i _).frame? i = _
  rw [frame?_modifyFrame, if_pos rfl, hg]
  rfl

lemma runs_openOwn (xs : List String) (hcurrent : s.current? (.text f) = none) (hplace : s.functions.get? ⟨.text f⟩ = some i)
    (hg : s.frame? i = some g) (hfun : g.function = some (.function xs e)) (es : List Node) :
    (Eval.openDefined (.call f es) s).Runs (Settles memoize) (.ok (.text f, i, .function xs e))
      (s.openOwn i (xs.map .text)) := by
  have he : Entered (s.pushScope .defined) (.text f) i (s.openOwn i []) := .own hcurrent hplace
  have hv : Settles memoize (.function xs e) (s.openOwn i []) (.ok .nothing) _ :=
    (declared_function xs e).settles rfl
  have ho : (s.openOwn i []).addParameters i (xs.map .text) = s.openOwn i (xs.map .text) :=
    congrArg (fun t : Store => { t with scopes := .defined :: s.scopes, calls := i :: s.calls })
      (modifyFrame_modifyFrame s i
        (fun f => { f with parameters := [], arguments := [], caller := s.calls.head? })
        fun f => { f with parameters := f.parameters ++ xs.map .text })
  rw [ho] at hv
  exact runs_openDefined.mpr ⟨rfl, _, _, .nothing, he, frame?_openOwn [] hg, hfun, hv⟩

def Activation.ofNumbers (xs : List String) (ms : List Int) (hcurrent : s.current? (.text f) = none)
    (hplace : s.functions.get? ⟨.text f⟩ = some i) (hg : s.frame? i = some g)
    (hfun : g.function = some (.function xs e)) (hlen : xs.length ≤ ms.length) :
    Activation memoize (.call f (ms.map .number)) s where
  name := .text f
  place := i
  function := .function xs e
  names := xs.map .text
  expression := e
  arguments := .arguments (ms.map .number)
  opened := s.openOwn i (xs.map .text)
  values := ms.map .int
  passed := (s.openOwn i (xs.map .text)).addNumbers i ms
  body := .branch .body [e]
  entered := ((s.openOwn i (xs.map .text)).addNumbers i ms).modifyFrame i Frame.bound
  kind_eq := rfl
  opens := runs_openOwn xs hcurrent hplace hg hfun _
  declares := declared_function xs e
  arguments_eq := rfl
  passes := passes_numbers
  enters := runs_passArguments.mpr ⟨rfl, _, .nothing, _, rfl, passes_numbers.settles rfl, _,
    frame?_addNumbers (frame?_openOwn _ hg), by simpa using hlen, rfl⟩

end

def Store.defineFunction (s : Store) (f : String) (xs : List String) (e : Node) : Store :=
  { s with
    frames := s.frames.push { name := .text f, function := some (.function xs e) }
    functions := s.functions.insert ⟨.text f⟩ s.frames.size }

lemma settles_defineFunction {memoize : Bool} {f : String} {xs : List String} {e : Node} {s : Store} :
    Settles memoize (.defineFunction f xs e) s (.ok .nothing) (s.defineFunction f xs e) :=
  .defineFunction (n := .defineFunction f xs e) (c := .identifier f) ⟨rfl, rfl⟩ ⟨rfl, rfl⟩

lemma enters_rest {memoize : Bool} {n x y : Node} {s t : Store} {v : Value} (hn : n.Has .statements [x, y])
    (hx : Settles memoize x s (.ok v) t) : Enters memoize (n, s) (y, t) := by
  obtain ⟨_, _, rfl⟩ := hn.eq_mk
  exact .later trivial hx .here

def nestedCall (xs : List String) (ms : List Int) : Node :=
  .program (.defineFunction "g" xs (.reference "x"))
    [.defineFunction "f" ["x"] (.call "g" (ms.map .number)), .branch .printNumber [.call "f" [.number 1]]]

def nestedDefined (xs : List String) (ms : List Int) : Store :=
  (Store.defineFunction {} "g" xs (.reference "x")).defineFunction "f" ["x"] (.call "g" (ms.map .number))

def outerCall (xs : List String) (ms : List Int) :
    Activation true (.call "f" [.number 1]) (nestedDefined xs ms) :=
  .ofNumbers ["x"] [1] (i := 1)
    (g := { name := .text "f", function := some (.function ["x"] (.call "g" (ms.map .number))) })
    rfl rfl rfl rfl (Nat.le_refl _)

def innerCall (xs : List String) (ms : List Int) (h : xs.length ≤ ms.length) :
    Activation true (.call "g" (ms.map .number)) (outerCall xs ms).entered :=
  .ofNumbers xs ms (i := 0) (g := { name := .text "g", function := some (.function xs (.reference "x")) })
    rfl rfl rfl rfl h

lemma reaches_nestedCall (xs : List String) (ms : List Int) :
    Reaches true (nestedCall xs ms, {}) (.call "g" (ms.map .number), (outerCall xs ms).entered) := by
  have hprint : Reaches true (nestedCall xs ms, {}) (.call "f" [.number 1], nestedDefined xs ms) :=
    .head (enters_rest (n := nestedCall xs ms) ⟨rfl, rfl⟩ settles_defineFunction)
      (.head (enters_rest ⟨rfl, rfl⟩ settles_defineFunction) (.single .here))
  have hbody : Enters true (.call "f" [.number 1], nestedDefined xs ms) (_, (outerCall xs ms).entered) :=
    (outerCall xs ms).enters_body rfl rfl
  exact (hprint.tail hbody).tail .here

lemma quiet_of_reached {memoize : Bool} {i d : Nat} {c : Node × Store}
    (he : (evaluate memoize d c.1 c.2).1.toOption.isSome)
    (h : ∀ c' ∈ reached memoize d c, c'.1.kind ≠ .callDefined) : Quiet memoize i c := by
  intro c' hc' ht
  refine h c' (hc'.mem_reached fun hd => ?_) ht.1
  rw [hd] at he
  cases he

lemma tree_nestedCall (xs : List String) (ms : List Int) : Tree .statements (nestedCall xs ms) := by
  have hms : ∀ e ∈ ms.map Node.number, Tree .expression e := by
    intro e he
    obtain ⟨m, _, rfl⟩ := mem_map.mp he
    exact .number
  refine .program_of ?_
  simp only [forall_mem_cons]
  exact ⟨.functionDefinition (.functionName .identifier) (.function_of xs (.ofReference (.reference_of "x"))),
    .functionDefinition (.functionName .identifier) (.function_of _ (.call_of "g" hms)),
    .printNumber (.call_of "f" (by simpa using .number)), by simp⟩

/-- A call of a defined function comes to its body with its arguments evaluated and bound. From then on a
parameter has the value of its argument exactly if that is what is found for it. Where no call takes the record
meanwhile, the record binds it so, and this is found unless the function counts several parameters and the
caller's record binds the name to another value. -/
theorem parameter_value {memoize : Bool} {p n : Node} {s : Store} (hp : Tree .statements p)
    (hr : Reaches memoize (p, {}) (n, s)) (hk : n.kind = .callDefined) :
    (∀ b w, Enters memoize (n, s) (b, w) → b.kind = .body →
      ∃ a : Activation memoize n s, a.body = b ∧ a.entered = w) ∧
    ∀ (a : Activation memoize n s) (m c : Node) (u : Store) (k : Nat) (v : Value),
      a.names.Nodup → a.values.length = a.names.length →
      Reaches memoize (a.body, a.entered) (m, u) → u.calls = a.entered.calls →
      m.Has .reference [c] → a.names[k]? = some c.value → a.values[k]? = some v →
      ((∃ t, Settles memoize m u (.ok v) t) ↔ u.look c.value = some v) ∧
      (a.Undisturbed m u → ∃ g, u.frame? a.place = some g ∧ g.bindings.get? ⟨c.value⟩ = some v ∧
        g.caller = s.calls.head? ∧ ((∃ t, Settles memoize m u (.ok v) t) ↔
          g.parameters.length = 1 ∨ ∀ b, u.callerBinding g c.value = some b → b = v)) := by
  have hreg := hr.regular (regular_program hp)
  have hn : n.IsInner := hreg.tree.inner_of_call (.inr hk)
  refine ⟨fun b w => Activation.of_enters hreg hk, ?_⟩
  intro a m c u k v hnodup hlen hu hcalls hm hc hv
  have hlook : (∃ t, Settles memoize m u (.ok v) t) ↔ u.look c.value = some v := by
    simp only [settles_reference (hu.regular (a.regular_entered hreg hn)).aligned hm, exists_and_left, exists_eq,
      and_true]
    rw [eq_comm, resolve_ok]
  refine ⟨hlook, fun hund => ?_⟩
  obtain ⟨hscopes, g, hg, hps, hcaller, hbindings⟩ := a.frame_use hn hreg.proper hnodup hlen hund hcalls
  have hb := hbindings k c.value v hc hv
  have hscope : u.scopes.head? = some .defined := by rw [hscopes, a.level_entered.2]; rfl
  have hhead : u.calls.head? = some a.place := by rw [hcalls, a.level_entered.1]; rfl
  have hne : g.parameters ≠ [] := by
    intro h
    rw [h, prefix_nil] at hps
    simp [hps] at hc
  refine ⟨g, hg, hb, hcaller, hlook.trans ?_⟩
  rw [Store.look_defined hscope hhead hg, Frame.binding?_or_eq_some hne hb]

theorem parameter_value_nested : ∃ a : Activation true (.call "g" [.number 5]) (outerCall ["x"] [5]).entered,
    a.names = [.text "x"] ∧ a.values = [.int 5] ∧ (∃ g, a.entered.frame? a.place = some g ∧
      a.entered.callerBinding g (.text "x") = some (.int 1)) ∧
    ∃ t, Settles true (.reference "x") a.entered (.ok (.int 5)) t := by
  let a := innerCall ["x"] [5] (by decide)
  have hm : Reaches true (a.body, a.entered) (.reference "x", a.entered) := .single .here
  have hq : Quiet true a.place (a.arguments, a.opened) :=
    quiet_of_reached (d := 3) (by decide +kernel) (by decide +kernel)
  obtain ⟨_, h⟩ := (parameter_value (tree_nestedCall ["x"] [5]) (reaches_nestedCall ["x"] [5]) rfl).2 a
    (.reference "x") (.identifier "x") a.entered 0 (.int 5) (by decide) rfl hm rfl ⟨rfl, rfl⟩ rfl rfl
  obtain ⟨g, hg, _, _, hiff⟩ := h ⟨hq, .single .here⟩
  have hps : g.parameters.length = 1 := by
    cases hg
    rfl
  exact ⟨a, rfl, rfl, ⟨_, rfl, rfl⟩, hiff.mpr (.inl hps)⟩

theorem parameter_hidden : Tree .statements (nestedCall ["x", "y"] [5, 6]) ∧
    ∃ (n : Node) (s : Store) (a : Activation true n s), Reaches true (nestedCall ["x", "y"] [5, 6], {}) (n, s) ∧
      a.names = [.text "x", .text "y"] ∧ a.values = [.int 5, .int 6] ∧
      Reaches true (a.body, a.entered) (.reference "x", a.entered) ∧ a.Undisturbed (.reference "x") a.entered ∧
      Settles true (.reference "x") a.entered (.ok (.int 1)) a.entered ∧
      ¬ ∃ t, Settles true (.reference "x") a.entered (.ok (.int 5)) t := by
  let a := innerCall ["x", "y"] [5, 6] (by decide)
  have hp := tree_nestedCall ["x", "y"] [5, 6]
  have hr := reaches_nestedCall ["x", "y"] [5, 6]
  have hm : Reaches true (a.body, a.entered) (.reference "x", a.entered) := .single .here
  have hq : Quiet true a.place (a.arguments, a.opened) :=
    quiet_of_reached (d := 4) (by decide +kernel) (by decide +kernel)
  have hreg := hr.regular (regular_program hp)
  have ha := (a.regular_entered hreg (hreg.tree.inner_of_call (.inr rfl))).aligned
  have hlook : a.entered.look (.text "x") = some (.int 1) := by decide +kernel
  have hv : Settles true (.reference "x") a.entered (.ok (.int 1)) a.entered :=
    (settles_reference (c := .identifier "x") ha ⟨rfl, rfl⟩).mpr ⟨(resolve_ok.mpr hlook).symm, rfl⟩
  have hund : a.Undisturbed (.reference "x") a.entered := ⟨hq, .single .here⟩
  have hne : ¬ ∃ t, Settles true (.reference "x") a.entered (.ok (.int 5)) t := by
    rintro ⟨t, ht⟩
    cases (ht.unique hv).1
  exact ⟨hp, _, _, a, hr, rfl, rfl, hm, hund, hv, hne⟩

end LispKit.Lisp
