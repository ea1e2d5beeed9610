import LispKit.Proofs.Lisp.Call

/-! Invariants of evaluation: what every change to a store keeps, evaluations keep as a whole. -/

namespace LispKit.Lisp

open List Eval

/-- A relation between stores that all changes on the way of an evaluation keep, for nodes of a class and for
stores with a property. -/
structure Stable (N : Node → Prop) (I : Store → Prop) (R : Store → Store → Prop) : Prop where
  refl : ∀ s, R s s
  trans : ∀ {s t u}, R s t → R t u → R s u
  keeps : ∀ {s t}, R s t → I s → I t
  child : ∀ {n c}, N n → c ∈ n.children → N c
  function : ∀ {s i f c}, I s → s.frame? i = some f → f.function = some c → N c
  plain : ∀ {n s t}, N n → Plain n s t → R s t
  calls : ∀ s is cs, R s { s with calls := is, scopes := cs }
  memo : ∀ s call v, R s { s with memo := s.memo.insert call v }
  opened : ∀ {n c} s, N n → n.kind = .callAnonymous → n.children[0]? = some c → R s (s.openAnonymous c)
  entered : ∀ {s name i t}, Entered s name i t → R s t
  bindings : ∀ s i (b : Frame → Registry Key Value), R s (s.modifyFrame i fun f => { f with bindings := b f })

namespace Course

variable {α : Type} {G : Meaning} {N : Node → Prop} {K L : Store → Store → Prop} {c : Course α} {s₀ t : Store}

lemma Keeps.ends {r : Except Fault α} (h : c.Keeps N K s₀) (hL : ∀ s, K s₀ s → L s₀ s)
    (hok : ∀ n s v s', N n → K s₀ s → G n s (.ok v) s' → K s₀ s')
    (herror : ∀ n s e s', N n → K s₀ s → G n s (.error e) s' → L s₀ s') (hr : c.Runs G r t) : L s₀ t := by
  induction hr with
  | done r s => exact hL s h
  | next hg _ ih => exact ih (h.2.2 _ _ (hok _ _ _ _ h.1 h.2.1 hg))
  | fail hg => exact herror _ _ _ _ h.1 h.2.1 hg

end Course

namespace Stable

variable {memoize : Bool} {N : Node → Prop} {I : Store → Prop} {R : Store → Store → Prop} {G : Meaning}
  {n function body : Node} {s t : Store} {i : Nat} {name v : Value}

lemma part (h : Stable N I R) {m : Node} (hn : N n) (hm : n.Part m) : N m := by
  obtain hm | ⟨_, c, hc, _, hm⟩ := hm
  · exact h.child hn hm
  · exact h.child (h.child hn hc) hm

section

variable (h : Stable N I R) (hG : ∀ n s v t, G n s (.ok v) t → N n → I s → R s t)

include h hG

lemma openAnonymous (hn : N n) (hk : n.kind = .callAnonymous) (hs : I s)
    (hr : (Eval.openAnonymous n s).Runs G (.ok (i, function)) t) : R s t ∧ N function := by
  obtain ⟨hc, rfl, v, hv⟩ := runs_openAnonymous.mp hr
  have hf := h.child hn (mem_of_getElem? hc)
  have ho := h.opened s hn hk hc
  exact ⟨h.trans ho (hG _ _ _ _ hv hf (h.keeps ho hs)), hf⟩

lemma openDefined (hs : I s) (hr : (Eval.openDefined n s).Runs G (.ok (name, i, function)) t) : R s t ∧ N function := by
  obtain ⟨_, u, f, v, he, hf, hfun, hv⟩ := runs_openDefined.mp hr
  have hp : R s (s.pushScope .defined) := h.calls s s.calls _
  have hu := h.trans hp (h.entered he)
  have hN := h.function (h.keeps hu hs) hf hfun
  exact ⟨h.trans hu (hG _ _ _ _ hv hN (h.keeps hu hs)), hN⟩

lemma passArguments (hn : N n) (hf : N function) (hs : I s)
    (hr : (Eval.passArguments n i function s).Runs G (.ok body) t) : R s t ∧ N body := by
  obtain ⟨hb, args, v, u, hargs, hv, f, _, _, rfl⟩ := runs_passArguments.mp hr
  have hu := hG _ _ _ _ hv (h.child hn (mem_of_getElem? hargs)) hs
  exact ⟨h.trans hu (h.bindings u i _), h.child hf (mem_of_getElem? hb)⟩

omit hG in
lemma leaveWith (hr : (Eval.leaveWith v s).Runs G (.ok v) t) : R s t := by
  obtain ⟨_, _, _, _, _, _, _, rfl⟩ := runs_leaveWith.mp hr
  exact h.calls s _ _

lemma callAnonymous (hn : N n) (hk : n.kind = .callAnonymous) (hs : I s)
    (hr : (Eval.callAnonymous n s).Runs G (.ok v) t) : R s t := by
  obtain ⟨i, function, u, body, w, x, ho, hp, hb, hl⟩ := runs_callAnonymous.mp hr
  obtain ⟨hu, hf⟩ := h.openAnonymous hG hn hk hs ho
  obtain ⟨hw, hbody⟩ := h.passArguments hG hn hf (h.keeps hu hs) hp
  have hw := h.trans hu hw
  exact h.trans (h.trans hw (hG _ _ _ _ hb hbody (h.keeps hw hs))) (h.leaveWith hl)

lemma callDefined (hn : N n) (hs : I s) (hr : (Eval.callDefined memoize n s).Runs G (.ok v) t) : R s t := by
  obtain ⟨name, i, body, w, x, hp, ha, hl⟩ := runs_callDefined.mp hr
  obtain ⟨function, u, ho, hp⟩ := runs_prepare.mp hp
  obtain ⟨hu, hf⟩ := h.openDefined hG hs ho
  obtain ⟨hw, hbody⟩ := h.passArguments hG hn hf (h.keeps hu hs) hp
  have hw := h.trans hu hw
  refine h.trans (h.trans hw ?_) (h.leaveWith hl)
  obtain ⟨f, hf⟩ := frame_of_runs_answer ha
  obtain ⟨_, rfl⟩ | ⟨_, hc⟩ := (runs_answer hf).mp ha
  · exact h.refl _
  · obtain ⟨y, g, hy, _, rfl⟩ := runs_compute.mp hc
    exact h.trans (hG _ _ _ _ hy hbody (h.keeps hw hs)) (h.memo y _ _)

end

lemma keeps_step (h : Stable N I R) (hn : N n) (hc : ¬ n.IsCall) :
    Eval.Keeps n.Part (fun s t => Level s t ∧ R s t) (Eval.step memoize n) :=
  Eval.keeps_step (fun _ _ _ hs ht => ⟨hs.1.trans ht.1, h.trans hs.2 ht.2⟩)
    (fun _ _ hp => ⟨hp.level, h.plain hn hp⟩) (fun _ _ hs => hs.1.1) hc

theorem settles (h : Stable N I R) (hr : Settles memoize n s (.ok v) t) (hn : N n) (hs : I s) : R s t := by
  refine Settles.induction_ok (Q := fun n s _ t => N n → I s → R s t) (fun n s v t hr hn hs => ?_) hr hn hs
  have hG : ∀ m u v t, (Enters memoize (n, s) (m, u) ∧ Settles memoize m u (.ok v) t ∧
      ∀ w, (.ok v : Except Fault Value) = .ok w → N m → I u → R u t) → N m → I u → R u t :=
    fun _ _ v _ h => h.2.2 v rfl
  by_cases hc : n.IsCall
  · obtain hk | hk := hc
    · rw [step_callAnonymous hk] at hr
      exact h.callAnonymous hG hn hk hs hr
    · rw [step_callDefined hk] at hr
      exact h.callDefined hG hn hs hr
  · refine ((h.keeps_step hn hc s s ⟨⟨rfl, rfl⟩, h.refl s⟩).runs (fun m u v t hm hu hg => ?_) hr).2
    exact ⟨hu.1.trans hg.2.1.level, h.trans hu.2 (hG m u v t hg (h.part hn hm) (h.keeps hu.2 hs))⟩

theorem enters (h : Stable N I R) {c c' : Node × Store} (he : Enters memoize c c') (hn : N c.1) (hs : I c.2) :
    N c'.1 ∧ R c.2 c'.2 := by
  obtain ⟨n, s⟩ := c
  obtain ⟨m, t⟩ := c'
  have hG : ∀ n s v t, (True ∧ Settles memoize n s (.ok v) t) → N n → I s → R s t :=
    fun _ _ _ _ hr => h.settles hr.2
  simp only [Enters] at he hn hs ⊢
  by_cases hc : n.IsCall
  · obtain hk | hk := hc
    · rw [step_callAnonymous hk] at he
      obtain ⟨hm, rfl⟩ | ⟨i, function, u, ho, ⟨hargs, rfl⟩ | hp⟩ := visits_callAnonymous he
      · exact ⟨h.child hn (mem_of_getElem? hm), h.opened s hn hk hm⟩
      · exact ⟨h.child hn (mem_of_getElem? hargs), (h.openAnonymous hG hn hk hs ho).1⟩
      · obtain ⟨hu, hf⟩ := h.openAnonymous hG hn hk hs ho
        obtain ⟨ht, hm⟩ := h.passArguments hG hn hf (h.keeps hu hs) hp
        exact ⟨hm, h.trans hu ht⟩
    · rw [step_callDefined hk] at he
      obtain he | ⟨name, i, function, u, ho, ⟨hargs, rfl⟩ | hp⟩ := visits_callDefined he
      · obtain ⟨name, i, f, _, he, hf, hfun⟩ := visits_openDefined.mp he
        have hp : R s (s.pushScope .defined) := h.calls s s.calls _
        have hu := h.trans hp (h.entered he)
        exact ⟨h.function (h.keeps hu hs) hf hfun, hu⟩
      · exact ⟨h.child hn (mem_of_getElem? hargs), (h.openDefined hG hs ho).1⟩
      · obtain ⟨hu, hf⟩ := h.openDefined hG hs ho
        obtain ⟨ht, hm⟩ := h.passArguments hG hn hf (h.keeps hu hs) hp
        exact ⟨hm, h.trans hu ht⟩
  · obtain ⟨hm, ht⟩ := (h.keeps_step hn hc s s ⟨⟨rfl, rfl⟩, h.refl s⟩).visits
      (fun m u v t hm hu _ hg => ⟨hu.1.trans hg.level,
        h.trans hu.2 (h.settles hg (h.part hn hm) (h.keeps hu.2 hs))⟩) he
    exact ⟨h.part hn hm, ht.2⟩

section

variable (h : Stable N I R)

include h

lemma keeps_modify {F : Store → Store} (hF : ∀ s, R s (F s)) : Eval.Keeps (fun _ => True) R (modify F : Eval Unit) :=
  Eval.keeps_modify (fun _ _ _ => h.trans) hF

lemma keeps_openAnonymous (hn : N n) (hk : n.kind = .callAnonymous) :
    Eval.Keeps (fun _ => True) R (Eval.openAnonymous n) := by
  intro s₀ s hs
  cases hc : n.children[0]? with
  | none =>
    simp only [Eval.openAnonymous, bind_apply, modify_apply, Course.andThen, Eval.child, hc, Eval.fail]
    exact h.trans hs (h.calls s s.calls _)
  | some c =>
    simp only [Eval.openAnonymous, bind_apply, modify_apply, Course.andThen, Eval.child, hc]
    exact ⟨trivial, h.trans hs (h.opened s hn hk hc), fun _ _ ht => ht⟩

lemma keeps_enterDefined (name : Value) : Eval.Keeps (fun _ => True) R (Eval.enterDefined name) := by
  intro s₀ s hs
  simp only [Eval.enterDefined, bind_apply, get_apply, Course.andThen]
  cases hc : s.current? name with
  | some p => exact h.trans hs (h.entered (.copy hc))
  | none =>
    cases hf : s.functions.get? ⟨name⟩ with
    | none => exact (constant_missing name).reads.keeps s₀ s hs
    | some i => exact h.trans hs (h.entered (.own hc hf))

lemma keeps_openDefined (n : Node) : Eval.Keeps (fun _ => True) R (Eval.openDefined n) := by
  refine Eval.Keeps.bind (h.keeps_modify fun s => h.calls s s.calls _) fun _ => keeps_child n 0 fun c _ => ?_
  refine (constant_nameOf c).reads.keeps.bind fun name => (h.keeps_enterDefined name).bind fun i => ?_
  refine (reads_functionOf i).keeps.bind fun function => ?_
  exact (keeps_visit trivial).bind fun _ => (constant_pure _).reads.keeps

lemma keeps_bindFrom (i : Nat) (ps : List Value) (k : Nat) : Eval.Keeps (fun _ => True) R (Eval.bindFrom i ps k) := by
  induction ps generalizing k with
  | nil => exact (constant_pure _).reads.keeps
  | cons p ps ih =>
    refine (reads_frameAt i).keeps.bind fun f => ?_
    cases f.arguments[k]? with
    | none => exact (constant_fail _).reads.keeps
    | some v => exact Eval.Keeps.bind (h.keeps_modify fun s => h.bindings s i _) fun _ => ih (k + 1)

lemma keeps_passArguments (n : Node) (i : Nat) (function : Node) :
    Eval.Keeps (fun _ => True) R (Eval.passArguments n i function) := by
  refine keeps_child n 1 fun c _ => (keeps_visit trivial).bind fun _ => ?_
  refine Eval.Keeps.bind ((reads_frameAt i).keeps.bind fun f => h.keeps_bindFrom i f.parameters 0) fun _ => ?_
  exact (constant_child function 1).reads.keeps

lemma keeps_leaveWith (v : Value) : Eval.Keeps (fun _ => True) R (Eval.leaveWith v) := by
  intro s₀ s hs
  cases hi : s.calls with
  | nil =>
    simp only [Eval.leaveWith, Eval.leaveCall, bind_apply, get_apply, Course.andThen, hi, Eval.fail]
    exact hs
  | cons i is =>
    simp only [Eval.leaveWith, Eval.leaveCall, bind_apply, get_apply, Course.andThen, hi, modify_apply]
    cases s.scopes with
    | nil => exact h.trans hs (h.calls s is [])
    | cons c cs => exact h.trans hs (h.calls s is cs)

lemma keeps_answer (name : Value) (i : Nat) (body : Node) :
    Eval.Keeps (fun _ => True) R (Eval.answer memoize name i body) := by
  refine (reads_callOf name i).keeps.bind fun call => reads_get.keeps.bind fun s => ?_
  dsimp only
  cases if memoize then s.memo.get? call else none with
  | some v => exact (constant_pure v).reads.keeps
  | none =>
    refine Eval.Keeps.bind (keeps_visit trivial) fun v => Eval.Keeps.bind ?_ fun _ => (constant_pure v).reads.keeps
    exact (reads_callOf name i).keeps.bind fun call => h.keeps_modify fun s => h.memo s _ _

lemma keeps_call (hn : N n) (hc : n.IsCall) : Eval.Keeps (fun _ => True) R (Eval.step memoize n) := by
  obtain hk | hk := hc
  · rw [step_callAnonymous hk]
    refine (h.keeps_openAnonymous hn hk).bind fun p => (h.keeps_passArguments n p.1 p.2).bind fun body => ?_
    exact (keeps_visit trivial).bind h.keeps_leaveWith
  · rw [step_callDefined hk]
    refine Eval.Keeps.bind ((h.keeps_openDefined n).bind fun p => ?_) fun p => ?_
    · exact (h.keeps_passArguments n p.2.1 p.2.2).bind fun body => (constant_pure _).reads.keeps
    · exact (h.keeps_answer p.1 p.2.1 p.2.2).bind h.keeps_leaveWith

theorem evaluate (d : Nat) (hn : N n) (hs : I s) : R s (Lisp.evaluate memoize d n s).2 := by
  induction d generalizing n s with
  | zero => exact h.refl s
  | succ d ih =>
    have hruns : (Eval.step memoize n s).Runs (fun m u r t => Lisp.evaluate memoize d m u = (r, t))
        (Lisp.evaluate memoize (d + 1) n s).1 (Lisp.evaluate memoize (d + 1) n s).2 := Course.runs_iff_run.mpr rfl
    have hok : ∀ {m u v t}, Lisp.evaluate memoize d m u = (.ok v, t) → Settles memoize m u (.ok v) t :=
      fun he => ⟨by simp, d, he⟩
    have hG : ∀ {m u r t}, (Eval.step memoize n s).Visits (fun m u r t => Lisp.evaluate memoize d m u = (r, t))
        (fun _ _ => True) m u ∧ Lisp.evaluate memoize d m u = (r, t) → R u t := by
      rintro m u r t ⟨hv, he⟩
      obtain ⟨hm, hu⟩ := h.enters (.of_evaluate hv) hn hs
      have hend := ih hm (h.keeps hu hs)
      rwa [he] at hend
    by_cases hc : n.IsCall
    · exact (h.keeps_call hn hc s s (h.refl s)).ends (fun _ => id) (fun _ _ _ _ _ hu hg => h.trans hu (hG hg))
        (fun _ _ _ _ _ hu hg => h.trans hu (hG hg)) hruns.visits
    · exact (h.keeps_step hn hc s s ⟨⟨rfl, rfl⟩, h.refl s⟩).ends (fun _ => And.right)
        (fun _ _ _ _ _ hu hg => ⟨hu.1.trans (hok hg.2).level, h.trans hu.2 (hG hg)⟩)
        (fun _ _ _ _ _ hu hg => h.trans hu.2 (hG hg)) hruns.visits

end

end Stable

end LispKit.Lisp
