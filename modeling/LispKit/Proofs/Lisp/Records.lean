import LispKit.Proofs.Lisp.Tree

/-! Records of functions: what an evaluation does to a record that no call takes meanwhile. -/

namespace LispKit.Lisp

open List Eval Store

def Takes (i : Nat) (c : Node × Store) : Prop :=
  c.1.kind = .callDefined ∧ ∃ name u, c.1.callee? = some name ∧ Entered (c.2.pushScope .defined) name i u

def Store.template (s : Store) (name : Value) : Option Frame :=
  match s.current? name with
  | some (_, f) => some f
  | none => (s.functions.get? ⟨name⟩).bind s.frame?

lemma Entered.frame {s u : Store} {name : Value} {i : Nat} (h : Entered s name i u) {f : Frame}
    (hf : u.frame? i = some f) : ∃ g, s.template name = some g ∧
      f = { g with parameters := [], arguments := [], caller := s.calls.head? } := by
  cases h with
  | copy hc =>
    obtain ⟨htop, _⟩ := same_of_current? hc
    refine ⟨_, by rw [Store.template, hc], ?_⟩
    simp only [Store.frame?, Array.getElem?_push_size, Option.some.injEq] at hf
    rw [← hf, htop]
  | own hc hi =>
    simp only [Store.frame?, Array.getElem?_modify, if_pos] at hf
    obtain ⟨g, hg, rfl⟩ := Option.map_eq_some_iff.mp hf
    exact ⟨g, by rw [Store.template, hc, hi]; exact hg, rfl⟩

/-- Nowhere in an evaluation does a call take the record. -/
def Quiet (memoize : Bool) (i : Nat) (c : Node × Store) : Prop :=
  ∀ c', Reaches memoize c c' → ¬ Takes i c'

lemma Quiet.enters {memoize : Bool} {i : Nat} {c c' : Node × Store} (h : Quiet memoize i c)
    (he : Enters memoize c c') : Quiet memoize i c' :=
  fun d hd => h d (.head he hd)

def Untouched (i : Nat) (s t : Store) : Prop :=
  s.frames.size ≤ t.frames.size ∧ t.frame? i = s.frame? i

namespace Untouched

variable {i j : Nat} {s t u : Store}

lemma refl (s : Store) : Untouched i s s :=
  ⟨Nat.le_refl _, rfl⟩

lemma trans (h : Untouched i s t) (h' : Untouched i t u) : Untouched i s u :=
  ⟨Nat.le_trans h.1 h'.1, h'.2.trans h.2⟩

lemma modifyFrame {F : Frame → Frame} (h : j ≠ i) : Untouched i s (s.modifyFrame j F) := by
  refine ⟨Nat.le_of_eq Array.size_modify.symm, ?_⟩
  rw [frame?_modifyFrame, if_neg h]

lemma push (f : Frame) (h : i < s.frames.size) : Untouched i s { s with frames := s.frames.push f } := by
  refine ⟨by simp, ?_⟩
  simp only [Store.frame?, Array.getElem?_push, if_neg (Nat.ne_of_lt h)]

lemma openAnonymous (c : Node) (h : i < s.frames.size) : Untouched i s (s.openAnonymous c) :=
  push { name := anonymousName, function := some c } h

lemma entered {name : Value} (h : Entered s name j t) (hi : i < s.frames.size) (hj : j ≠ i) : Untouched i s t := by
  cases h with
  | copy => exact push _ hi
  | own => exact modifyFrame (s := s) hj

lemma plain {n : Node} (h : Plain n s t) (hi : i < s.frames.size) (htop : s.calls.head? ≠ some i) :
    Untouched i s t := by
  cases h with
  | operators | print | global => exact refl s
  | function => exact push _ hi
  | argument _ _ hj | parameter _ _ hj => exact modifyFrame fun h => htop (h ▸ hj)

end Untouched

namespace Eval

variable {memoize : Bool} {G : Meaning} {i j : Nat} {n function body : Node} {s t : Store} {name v : Value}

/-- A relation between stores that holds where a record is untouched, and that calls of other functions carry on. -/
structure Carried (i : Nat) (X : Store → Store → Prop) : Prop where
  size : ∀ {s t}, X s t → s.frames.size ≤ t.frames.size
  trans : ∀ {s t u}, X s t → X t u → X s u
  untouched : ∀ {s t}, Untouched i s t → X s t

lemma carried_untouched : Carried i (Untouched i) :=
  ⟨fun h => h.1, Untouched.trans, id⟩

section

variable {X : Store → Store → Prop} (hX : Carried i X)
  (hG : ∀ n s v t, G n s (.ok v) t → i < s.frames.size → s.calls.head? ≠ some i → X s t)

include hX hG

lemma carried_openAnonymous (hi : i < s.frames.size)
    (h : (openAnonymous n s).Runs G (.ok (j, function)) t) : X s t ∧ j ≠ i := by
  obtain ⟨_, rfl, v, hv⟩ := runs_openAnonymous.mp h
  have ho : Untouched i s (s.openAnonymous function) := .openAnonymous function hi
  have hj : s.frames.size ≠ i := Nat.ne_of_gt hi
  refine ⟨hX.trans (hX.untouched ho) (hG _ _ _ _ hv (Nat.lt_of_lt_of_le hi ho.1) ?_), hj⟩
  simpa [Store.openAnonymous] using hj

lemma carried_openDefined (hi : i < s.frames.size) (hj : j ≠ i)
    (h : (openDefined n s).Runs G (.ok (name, j, function)) t) : X s t := by
  obtain ⟨_, u, f, v, he, _, _, hv⟩ := runs_openDefined.mp h
  have ho : Untouched i (s.pushScope .defined) u := .entered he hi hj
  refine hX.trans (hX.untouched ho) (hG _ _ _ _ hv (Nat.lt_of_lt_of_le hi ho.1) ?_)
  rw [he.calls.1]
  simpa using hj

lemma carried_passArguments (hi : i < s.frames.size) (hj : j ≠ i) (hs : s.calls.head? = some j)
    (h : (passArguments n j function s).Runs G (.ok body) t) : X s t := by
  obtain ⟨_, args, v, u, _, hv, f, _, _, rfl⟩ := runs_passArguments.mp h
  have hu := hG _ _ _ _ hv hi (by rw [hs]; simpa using hj)
  exact hX.trans hu (hX.untouched (.modifyFrame hj))

variable (hlevel : ∀ n s v t, G n s (.ok v) t → Level s t)

include hlevel

lemma carried_callAnonymous (hi : i < s.frames.size) (h : (callAnonymous n s).Runs G (.ok v) t) : X s t := by
  obtain ⟨j, function, u, body, w, x, ho, hp, hb, hl⟩ := runs_callAnonymous.mp h
  obtain ⟨hu, hj⟩ := carried_openAnonymous hX hG hi ho
  have hcalls : u.calls.head? = some j := by rw [(calls_openAnonymous hlevel ho).1]; rfl
  have hw := hX.trans hu (carried_passArguments hX hG (Nat.lt_of_lt_of_le hi (hX.size hu)) hj hcalls hp)
  have hwcalls : w.calls.head? ≠ some i := by
    rw [(level_passArguments hlevel hp).1, hcalls]
    simpa using hj
  have hx : X w x := hG _ _ _ _ hb (Nat.lt_of_lt_of_le hi (hX.size hw)) hwcalls
  obtain ⟨_, _, _, _, _, _, _, rfl⟩ := runs_leaveWith.mp hl
  exact hX.trans (hX.trans hw hx) (hX.untouched ⟨Nat.le_refl _, rfl⟩)

lemma carried_prepare (hi : i < s.frames.size) (hj : j ≠ i) (h : (prepare n s).Runs G (.ok (name, j, body)) t) :
    X s t ∧ t.calls.head? ≠ some i := by
  obtain ⟨function, u, ho, hp⟩ := runs_prepare.mp h
  have hu := carried_openDefined hX hG hi hj ho
  have hcalls : u.calls.head? = some j := by rw [(calls_openDefined hlevel ho).1]; rfl
  refine ⟨hX.trans hu (carried_passArguments hX hG (Nat.lt_of_lt_of_le hi (hX.size hu)) hj hcalls hp), ?_⟩
  rw [(level_passArguments hlevel hp).1, hcalls]
  simpa using hj

end

lemma untouched_callDefined
    (hG : ∀ n s v t, G n s (.ok v) t → i < s.frames.size → s.calls.head? ≠ some i → Untouched i s t)
    (hlevel : ∀ n s v t, G n s (.ok v) t → Level s t) (hi : i < s.frames.size) (hn : ¬ Takes i (n, s))
    (hk : n.kind = .callDefined) (h : (callDefined memoize n s).Runs G (.ok v) t) : Untouched i s t := by
  obtain ⟨name, j, body, w, x, hp, ha, hl⟩ := runs_callDefined.mp h
  obtain ⟨function, u, ho, -⟩ := runs_prepare.mp hp
  obtain ⟨hcallee, y, _, _, he, -⟩ := runs_openDefined.mp ho
  have hj : j ≠ i := by
    rintro rfl
    exact hn ⟨hk, name, y, hcallee, he⟩
  obtain ⟨hw, hwcalls⟩ := carried_prepare carried_untouched hG hlevel hi hj hp
  have hx : Untouched i w x := by
    obtain ⟨f, hf⟩ := frame_of_runs_answer ha
    obtain ⟨_, rfl⟩ | ⟨_, hc⟩ := (runs_answer hf).mp ha
    · exact .refl _
    · obtain ⟨y, g, hy, _, rfl⟩ := runs_compute.mp hc
      have hwy : Untouched i w y := hG _ _ _ _ hy (Nat.lt_of_lt_of_le hi hw.1) hwcalls
      exact hwy
  obtain ⟨_, _, _, _, _, _, _, rfl⟩ := runs_leaveWith.mp hl
  exact hw.trans hx

lemma keeps_untouched (hc : ¬ n.IsCall) : Keeps n.Part (fun s t => Level s t ∧
    (i < s.frames.size → s.calls.head? ≠ some i → Untouched i s t)) (step memoize n) := by
  refine keeps_step (fun s t u h h' => ⟨h.1.trans h'.1, fun hi htop => ?_⟩)
    (fun _ _ h => ⟨h.level, .plain h⟩) (fun _ _ h => h.1.1) hc
  have ht := h.2 hi htop
  exact ht.trans (h'.2 (Nat.lt_of_lt_of_le hi ht.1) (by rwa [h.1.1]))

end Eval

lemma Settles.untouched {memoize : Bool} {i : Nat} {n : Node} {s t : Store} {v : Value}
    (h : Settles memoize n s (.ok v) t) (hi : i < s.frames.size) (hq : Quiet memoize i (n, s))
    (htop : n.IsCall ∨ s.calls.head? ≠ some i) : Untouched i s t := by
  refine Settles.induction_ok (Q := fun n s _ t => i < s.frames.size → Quiet memoize i (n, s) →
    n.IsCall ∨ s.calls.head? ≠ some i → Untouched i s t) (fun n s v t hr hi hq htop => ?_) h hi hq htop
  have hG : ∀ m u v t, (Enters memoize (n, s) (m, u) ∧ Settles memoize m u (.ok v) t ∧
      ∀ w, (.ok v : Except Fault Value) = .ok w → i < u.frames.size → Quiet memoize i (m, u) →
        m.IsCall ∨ u.calls.head? ≠ some i → Untouched i u t) →
      i < u.frames.size → u.calls.head? ≠ some i → Untouched i u t :=
    fun _ _ v _ h hi htop => h.2.2 v rfl hi (hq.enters h.1) (.inr htop)
  -- A call puts another record on top, so that inside it the record at i is not the one that collects.
  by_cases hc : n.IsCall
  · obtain hk | hk := hc
    · rw [step_callAnonymous hk] at hr
      exact carried_callAnonymous carried_untouched hG (fun _ _ _ _ h => h.2.1.level) hi hr
    · rw [step_callDefined hk] at hr
      exact untouched_callDefined hG (fun _ _ _ _ h => h.2.1.level) hi (hq _ .refl) hk hr
  · refine ((keeps_untouched hc s s ⟨⟨rfl, rfl⟩, fun _ _ => .refl s⟩).runs
      (fun m u v t _ hu hg => ⟨hu.1.trans hg.2.1.level, fun hi htop => ?_⟩) hr).2 hi (htop.resolve_left hc)
    have hs := hu.2 hi htop
    exact hs.trans (hG m u v t hg (Nat.lt_of_lt_of_le hi hs.1) (by rwa [hu.1.1]))

structure Frame.Retains (full : Prop) (f g : Frame) : Prop where
  bindings : g.bindings = f.bindings
  caller : g.caller = f.caller
  parameters : f.parameters <+: g.parameters
  arguments : full → g.arguments = f.arguments

def Retained (full : Prop) (i : Nat) (s t : Store) : Prop :=
  s.frames.size ≤ t.frames.size ∧
    ∀ f, s.frame? i = some f → ∃ g, t.frame? i = some g ∧ f.Retains full g

lemma Frame.Retains.refl (full : Prop) (f : Frame) : f.Retains full f :=
  ⟨rfl, rfl, prefix_refl _, fun _ => rfl⟩

lemma Frame.Retains.trans {full : Prop} {f g h : Frame} (hg : f.Retains full g) (hh : g.Retains full h) :
    f.Retains full h :=
  ⟨hh.bindings.trans hg.bindings, hh.caller.trans hg.caller, hg.parameters.trans hh.parameters,
    fun he => (hh.arguments he).trans (hg.arguments he)⟩

namespace Retained

variable {full : Prop} {i j : Nat} {s t u : Store}

lemma trans (h : Retained full i s t) (h' : Retained full i t u) : Retained full i s u := by
  refine ⟨Nat.le_trans h.1 h'.1, fun f hf => ?_⟩
  obtain ⟨g, hg, hfg⟩ := h.2 f hf
  obtain ⟨k, hk, hgk⟩ := h'.2 g hg
  exact ⟨k, hk, hfg.trans hgk⟩

lemma mono {weaker : Prop} (h : Retained full i s t) (hw : weaker → full) : Retained weaker i s t := by
  refine ⟨h.1, fun f hf => ?_⟩
  obtain ⟨g, hg, hfg⟩ := h.2 f hf
  exact ⟨g, hg, hfg.bindings, hfg.caller, hfg.parameters, fun h => hfg.arguments (hw h)⟩

lemma of_untouched (h : Untouched i s t) : Retained full i s t :=
  ⟨h.1, fun f hf => ⟨f, h.2.trans hf, .refl full f⟩⟩

lemma modifyFrame {F : Frame → Frame} (hF : ∀ f : Frame, f.Retains full (F f)) :
    Retained full i s (s.modifyFrame j F) := by
  refine ⟨Nat.le_of_eq Array.size_modify.symm, fun f hf => ?_⟩
  rw [frame?_modifyFrame, hf]
  split
  · exact ⟨F f, rfl, hF f⟩
  · exact ⟨f, rfl, .refl full f⟩

lemma plain {n : Node} (h : Plain n s t) (hi : i < s.frames.size) : Retained (n.kind ≠ .arguments) i s t := by
  cases h with
  | operators | print | global => exact of_untouched (.refl s)
  | function => exact of_untouched (.push _ hi)
  | argument _ hk => exact modifyFrame fun f => ⟨rfl, rfl, prefix_refl _, fun h => (h hk).elim⟩
  | parameter => exact modifyFrame fun f => ⟨rfl, rfl, prefix_append _ _, fun _ => rfl⟩

end Retained

lemma Eval.keeps_retained {memoize : Bool} {n : Node} {i : Nat} (hc : ¬ n.IsCall) :
    Keeps n.Part (fun s t => Level s t ∧ (i < s.frames.size → Retained (n.kind ≠ .arguments) i s t))
      (step memoize n) := by
  refine keeps_step (fun s t u h h' => ⟨h.1.trans h'.1, fun hi => ?_⟩)
    (fun _ _ h => ⟨h.level, .plain h⟩) (fun _ _ h => h.1.1) hc
  have ht := h.2 hi
  exact ht.trans (h'.2 (Nat.lt_of_lt_of_le hi ht.1))

lemma Node.IsInner.part_kind {n m : Node} (h : n.IsInner) (hcall : ¬ n.IsCall) (hm : n.Part m)
    (hn : n.kind ≠ .arguments) : m.kind ≠ .arguments := by
  obtain hm | ⟨hk, _⟩ := hm
  · exact h.kind_of_child hcall hn hm
  · exact (hn hk).elim

lemma Settles.retained {memoize : Bool} {i : Nat} {n : Node} {s t : Store} {v : Value}
    (h : Settles memoize n s (.ok v) t) (hn : n.IsInner) (hi : i < s.frames.size)
    (hq : Quiet memoize i (n, s)) : Retained (n.kind ≠ .arguments) i s t := by
  refine Settles.induction_ok (Q := fun n s _ t => n.IsInner → i < s.frames.size → Quiet memoize i (n, s) →
    Retained (n.kind ≠ .arguments) i s t) (fun n s v t hr hn hi hq => ?_) h hn hi hq
  by_cases hc : n.IsCall
  · have ht : Settles memoize n s (.ok v) t := .of_runs (hr.mono fun _ _ _ _ h => h.2.1)
    exact .of_untouched (ht.untouched hi hq (.inl hc))
  · refine ((keeps_retained hc s s ⟨⟨rfl, rfl⟩, fun _ => .of_untouched (.refl s)⟩).runs
      (fun m u v t hm hu hg => ⟨hu.1.trans hg.2.1.level, fun hi => ?_⟩) hr).2 hi
    have hs := hu.2 hi
    have ht := hg.2.2 v rfl (hn.part hm) (Nat.lt_of_lt_of_le hi hs.1) (hq.enters hg.1)
    exact hs.trans (ht.mono (hn.part_kind hc hm))

def Leads (memoize : Bool) (P : Node × Store → Prop) (c c' : Node × Store) : Prop :=
  (Eval.step memoize c.1 c.2).Visits (Settles memoize) (fun n s => P (n, s)) c'.1 c'.2

def Path (memoize : Bool) (P : Node × Store → Prop) : Node × Store → Node × Store → Prop :=
  Relation.ReflTransGen (Leads memoize P)

section

variable {memoize : Bool} {P Q : Node × Store → Prop} {c c' : Node × Store} {i : Nat}

lemma Leads.enters (h : Leads memoize P c c') : Enters memoize c c' :=
  Course.Visits.mono h (fun _ _ _ _ h => h) fun _ _ _ => trivial

lemma Path.mono (h : Path memoize P c c') (hPQ : ∀ d, P d → Q d) : Path memoize Q c c' :=
  Relation.ReflTransGen.mono (fun _ _ h => Course.Visits.mono h (fun _ _ _ _ h => h) fun _ _ => hPQ _) _ _ h

lemma Path.reaches (h : Path memoize P c c') : Reaches memoize c c' :=
  Relation.ReflTransGen.mono (fun _ _ => Leads.enters) _ _ h

lemma Quiet.path (h : Quiet memoize i c) (hr : Reaches memoize c c') : Path memoize (Quiet memoize i) c c' := by
  induction hr with
  | refl => exact .refl
  | @tail d _ hr he ih =>
    refine ih.tail (he.visits.mono (fun _ _ _ _ h => h) fun n s hv e he => h e ?_)
    have hd : Enters memoize d (n, s) := hv
    exact (hr.tail hd).trans he

lemma Enters.level (h : Enters memoize c c') (hc : ¬ c.1.IsCall) : Level c.2 c'.2 := by
  have hk : Eval.Keeps c.1.Part Level (Eval.step memoize c.1) :=
    Eval.keeps_step (fun _ _ _ => Level.trans) (fun _ _ => Plain.level) (fun _ _ h => h.1) hc
  exact ((hk c.2 c.2 ⟨rfl, rfl⟩).visits (fun _ _ _ _ _ hu _ hm => hu.trans hm.level) h).2

lemma Enters.calls_of_call (h : Enters memoize c c') (hc : c.1.IsCall) :
    ∃ i x, c'.2.calls = i :: c.2.calls ∧ c'.2.scopes = x :: c.2.scopes ∧ (x = .anonymous ∨ x = .defined) ∧
      (c.1.IsInner → c.2.Proper → i < c'.2.frames.size) := by
  have hlevel : ∀ n s v t, (True ∧ Settles memoize n s (.ok v) t) → Level s t := fun _ _ _ _ h => h.2.level
  have hG : ∀ n s v t, (True ∧ Settles memoize n s (.ok v) t) → n.IsInner → s.Proper → Extends s t :=
    fun _ _ _ _ h => h.2.extends
  obtain hk | hk := hc
  · rw [Enters, step_callAnonymous hk] at h
    obtain ⟨_, ht⟩ | ⟨i, function, u, ho, h⟩ := visits_callAnonymous h
    · rw [ht]
      exact ⟨_, _, rfl, rfl, .inl rfl, fun _ _ => by simp [Store.openAnonymous]⟩
    · obtain ⟨hcalls, hscopes⟩ := calls_openAnonymous hlevel ho
      obtain ⟨_, ht⟩ | hp := h
      · rw [ht]
        exact ⟨i, _, hcalls, hscopes, .inl rfl, fun hn hs => place_openAnonymous hG hn hk hs ho⟩
      · obtain ⟨hcalls', hscopes'⟩ := level_passArguments hlevel hp
        refine ⟨i, _, hcalls'.trans hcalls, hscopes'.trans hscopes, .inl rfl, fun hn hs => ?_⟩
        obtain ⟨hu, hf⟩ := stable_extends.openAnonymous hG hn hk hs ho
        exact Nat.lt_of_lt_of_le (place_openAnonymous hG hn hk hs ho)
          (stable_extends.passArguments hG hn hf (hu.proper hs) hp).1.size
  · rw [Enters, step_callDefined hk] at h
    obtain h | ⟨name, i, function, u, ho, h⟩ := visits_callDefined h
    · obtain ⟨name, i, f, _, he, hf, _⟩ := visits_openDefined.mp h
      exact ⟨i, _, he.calls.1, he.calls.2, .inr rfl, fun _ _ => lt_of_frame? hf⟩
    · obtain ⟨hcalls, hscopes⟩ := calls_openDefined hlevel ho
      obtain ⟨_, ht⟩ | hp := h
      · rw [ht]
        exact ⟨i, _, hcalls, hscopes, .inr rfl, fun _ hs => place_openDefined hG hs ho⟩
      · obtain ⟨hcalls', hscopes'⟩ := level_passArguments hlevel hp
        refine ⟨i, _, hcalls'.trans hcalls, hscopes'.trans hscopes, .inr rfl, fun hn hs => ?_⟩
        obtain ⟨hu, hf⟩ := stable_extends.openDefined hG hs ho
        exact Nat.lt_of_lt_of_le (place_openDefined hG hs ho)
          (stable_extends.passArguments hG hn hf (hu.proper hs) hp).1.size

structure Store.Aligned (s : Store) : Prop where
  length : s.scopes.length = s.calls.length
  scope : ∀ x ∈ s.scopes, x = .anonymous ∨ x = .defined
  live : ∀ i ∈ s.calls, i < s.frames.size

structure Regular (c : Node × Store) : Prop where
  tree : c.1.IsTree
  proper : c.2.Proper
  aligned : c.2.Aligned

lemma regular_program {p : Node} (hp : Tree .statements p) : Regular (p, {}) where
  tree := ⟨_, hp⟩
  proper := ⟨fun i f c hf => by simp [Store.frame?] at hf, fun e he => (not_mem_nil he).elim⟩
  aligned := ⟨rfl, fun x hx => (not_mem_nil hx).elim, fun i hi => (not_mem_nil hi).elim⟩

lemma Enters.regular (h : Enters memoize c c') (hc : Regular c) : Regular c' := by
  obtain ⟨hn, hs, ha⟩ := hc
  obtain ⟨hn', hsize, hs'⟩ := stable_grown.enters h hn hs
  refine ⟨hn', hs' hs, ?_⟩
  by_cases hc : c.1.IsCall
  · obtain ⟨i, x, hcalls, hscopes, hx, hi⟩ := h.calls_of_call hc
    refine ⟨by rw [hcalls, hscopes, length_cons, length_cons, ha.length], ?_, ?_⟩
    · rw [hscopes]
      exact forall_mem_cons.mpr ⟨hx, ha.scope⟩
    · rw [hcalls]
      exact forall_mem_cons.mpr ⟨hi (hn.inner_of_call hc) hs,
        fun j hj => Nat.lt_of_lt_of_le (ha.live j hj) hsize⟩
  · obtain ⟨hcalls, hscopes⟩ := h.level hc
    exact ⟨by rw [hcalls, hscopes, ha.length], by rw [hscopes]; exact ha.scope,
      fun i hi => Nat.lt_of_lt_of_le (ha.live i (hcalls ▸ hi)) hsize⟩

lemma Reaches.regular (h : Reaches memoize c c') (hc : Regular c) : Regular c' := by
  induction h with
  | refl => exact hc
  | tail _ he ih => exact he.regular ih

lemma Enters.calls_length (h : Enters memoize c c') : c.2.calls.length ≤ c'.2.calls.length := by
  by_cases hc : c.1.IsCall
  · obtain ⟨i, x, hcalls, _⟩ := h.calls_of_call hc
    simp [hcalls]
  · exact Nat.le_of_eq (congrArg List.length (h.level hc).1.symm)

lemma Path.retained (h : Path memoize (Quiet memoize i) c c') (hn : c.1.IsInner) (hi : i < c.2.frames.size) :
    c.2.calls.length < c'.2.calls.length ∨ Level c.2 c'.2 ∧ Retained False i c.2 c'.2 ∧ c'.1.IsInner := by
  -- Once a call has been entered the calls are more than before, and they stay so.
  induction h with
  | refl => exact .inr ⟨⟨rfl, rfl⟩, .of_untouched (.refl _), hn⟩
  | @tail d e _ he ih =>
    obtain hlt | ⟨hlevel, hret, hd⟩ := ih
    · exact .inl (Nat.lt_of_lt_of_le hlt he.enters.calls_length)
    · by_cases hc : d.1.IsCall
      · obtain ⟨j, x, hcalls, _⟩ := he.enters.calls_of_call hc
        left
        rw [hcalls, hlevel.1]
        simp
      · obtain ⟨hm, ht⟩ := (keeps_retained hc d.2 d.2 ⟨⟨rfl, rfl⟩, fun _ => .of_untouched (.refl _)⟩).visits
          (fun m u v t hm hu hq hg => ⟨hu.1.trans hg.level, fun hi => by
            have hs := hu.2 hi
            have ht := hg.retained (hd.part hm) (Nat.lt_of_lt_of_le hi hs.1) hq
            exact hs.trans (ht.mono (hd.part_kind hc hm))⟩) he
        refine .inr ⟨hlevel.trans ht.1, hret.trans ?_, hd.part hm⟩
        exact (ht.2 (Nat.lt_of_lt_of_le hi hret.1)).mono False.elim

end

end LispKit.Lisp
