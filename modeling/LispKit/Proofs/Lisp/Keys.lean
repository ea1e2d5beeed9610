import LispKit.Proofs.Lisp.Parameter

/-! Keys of the memo: the arguments under which a call looks up its result, and those under which it stores it. -/

namespace LispKit.Lisp

open List Eval Store Course

/-- Some call within an evaluation takes the record and looks up its result under the arguments. -/
def LooksUp (memoize : Bool) (i : Nat) (c : Node × Store) (vs : List Value) : Prop :=
  ∃ (n : Node) (s : Store) (a : Activation memoize n s) (f : Frame),
    Reaches memoize c (n, s) ∧ a.place = i ∧ a.entered.frame? i = some f ∧ f.arguments = vs

lemma LooksUp.enters {memoize : Bool} {i : Nat} {c c' : Node × Store} {vs : List Value}
    (h : LooksUp memoize i c' vs) (he : Enters memoize c c') : LooksUp memoize i c vs := by
  obtain ⟨n, s, a, f, hr, ha⟩ := h
  exact ⟨n, s, a, f, .head he hr, ha⟩

def Rekeyed (K : List Value → Prop) (i : Nat) (s t : Store) : Prop :=
  s.frames.size ≤ t.frames.size ∧
    ∀ f, s.frame? i = some f → ∃ g, t.frame? i = some g ∧ (g.arguments = f.arguments ∨ K g.arguments)

namespace Rekeyed

variable {K L : List Value → Prop} {i j : Nat} {s t u : Store}

lemma trans (h : Rekeyed K i s t) (h' : Rekeyed K i t u) : Rekeyed K i s u := by
  refine ⟨Nat.le_trans h.1 h'.1, fun f hf => ?_⟩
  obtain ⟨g, hg, hfg⟩ := h.2 f hf
  obtain ⟨k, hk, hgk⟩ := h'.2 g hg
  refine ⟨k, hk, ?_⟩
  rcases hgk with hgk | hgk
  · rw [hgk]
    exact hfg
  · exact .inr hgk

lemma mono (h : Rekeyed K i s t) (hKL : ∀ vs, K vs → L vs) : Rekeyed L i s t := by
  refine ⟨h.1, fun f hf => ?_⟩
  obtain ⟨g, hg, hfg⟩ := h.2 f hf
  exact ⟨g, hg, hfg.imp id (hKL _)⟩

lemma of_untouched (h : Untouched i s t) : Rekeyed K i s t :=
  ⟨h.1, fun f hf => ⟨f, h.2.trans hf, .inl rfl⟩⟩

lemma modifyFrame {F : Frame → Frame} (hF : ∀ f : Frame, (F f).arguments = f.arguments) :
    Rekeyed K i s (s.modifyFrame j F) := by
  refine ⟨Nat.le_of_eq Array.size_modify.symm, fun f hf => ?_⟩
  rw [frame?_modifyFrame, hf]
  split
  · exact ⟨F f, rfl, .inl (hF f)⟩
  · exact ⟨f, rfl, .inl rfl⟩

lemma plain {n : Node} (h : Plain n s t) (hi : i < s.frames.size)
    (htop : n.kind ≠ .arguments ∨ s.calls.head? ≠ some i) : Rekeyed K i s t := by
  cases h with
  | operators | print | global => exact of_untouched (.refl s)
  | function => exact of_untouched (.push _ hi)
  | argument _ hk hj =>
    have hne := htop.resolve_left fun h => h hk
    exact of_untouched (.modifyFrame fun h => hne (h ▸ hj))
  | parameter => exact modifyFrame fun _ => rfl

end Rekeyed

namespace Eval

variable {memoize : Bool} {G : Meaning} {K : List Value → Prop} {i j : Nat} {n function body : Node} {s t : Store}
  {name v : Value}

lemma carried_rekeyed : Carried i (Rekeyed K i) :=
  ⟨fun h => h.1, Rekeyed.trans, Rekeyed.of_untouched⟩

lemma rekeyed_answer (hG : ∀ n s v t, G n s (.ok v) t → i < s.frames.size →
      n.kind ≠ .arguments ∨ s.calls.head? ≠ some i → Rekeyed K i s t) (hi : i < s.frames.size)
    (hbody : body.kind ≠ .arguments) (h : (answer memoize name j body s).Runs G (.ok v) t) : Rekeyed K i s t := by
  obtain ⟨f, hf⟩ := frame_of_runs_answer h
  obtain ⟨_, rfl⟩ | ⟨_, hc⟩ := (runs_answer hf).mp h
  · exact .of_untouched (.refl _)
  · obtain ⟨u, g, hu, _, rfl⟩ := runs_compute.mp hc
    have hsu := hG _ _ _ _ hu hi (.inl hbody)
    exact hsu

lemma keeps_rekeyed (hc : ¬ n.IsCall) : Keeps n.Part (fun s t => Level s t ∧ (i < s.frames.size →
    n.kind ≠ .arguments ∨ s.calls.head? ≠ some i → Rekeyed K i s t)) (step memoize n) := by
  refine keeps_step (fun s t u h h' => ⟨h.1.trans h'.1, fun hi htop => ?_⟩)
    (fun _ _ h => ⟨h.level, .plain h⟩) (fun _ _ h => h.1.1) hc
  have ht := h.2 hi htop
  exact ht.trans (h'.2 (Nat.lt_of_lt_of_le hi ht.1) (by rwa [h.1.1]))

end Eval

lemma Activation.extends_entered {memoize : Bool} {n : Node} {s : Store} (a : Activation memoize n s) (hn : n.IsInner)
    (hs : s.Proper) : Extends s a.entered := by
  obtain ⟨hu, hf⟩ := stable_extends.openDefined settles_extends hs a.opens
  exact hu.trans (stable_extends.passArguments settles_extends hn hf (hu.proper hs) a.enters).1

lemma Activation.body_kind {memoize : Bool} {n : Node} {s : Store} (a : Activation memoize n s) (hs : s.Proper) :
    a.body.kind = .body :=
  (function_openDefined hs a.opens).body_of_function (runs_passArguments.mp a.enters).1

lemma Settles.rekeyed {memoize : Bool} {i : Nat} {n : Node} {s t : Store} {v : Value}
    (h : Settles memoize n s (.ok v) t) (hn : n.IsInner) (hc : Regular (n, s)) (hi : i < s.frames.size)
    (htop : n.kind ≠ .arguments ∨ s.calls.head? ≠ some i) : Rekeyed (LooksUp memoize i (n, s)) i s t := by
  refine Settles.induction_ok (Q := fun n s _ t => n.IsInner → Regular (n, s) → i < s.frames.size →
    n.kind ≠ .arguments ∨ s.calls.head? ≠ some i → Rekeyed (LooksUp memoize i (n, s)) i s t)
    (fun n s v t hr hn hc hi htop => ?_) h hn hc hi htop
  have hG : ∀ m u v t, (Enters memoize (n, s) (m, u) ∧ Settles memoize m u (.ok v) t ∧
      ∀ w, (.ok v : Except Fault Value) = .ok w → m.IsInner → Regular (m, u) → i < u.frames.size →
        m.kind ≠ .arguments ∨ u.calls.head? ≠ some i → Rekeyed (LooksUp memoize i (m, u)) i u t) →
      i < u.frames.size → m.kind ≠ .arguments ∨ u.calls.head? ≠ some i →
      Rekeyed (LooksUp memoize i (n, s)) i u t := by
    intro m u v t h hi htop
    have hm := (h.1.extends hn hc.proper).1
    exact (h.2.2 v rfl hm (h.1.regular hc) hi htop).mono fun vs hvs => hvs.enters h.1
  by_cases hcall : n.IsCall
  · have hcalls := fun m u v t h hi htop => hG m u v t h hi (.inr htop)
    obtain hk | hk := hcall
    · rw [step_callAnonymous hk] at hr
      exact carried_callAnonymous carried_rekeyed hcalls (fun _ _ _ _ h => h.2.1.level) hi hr
    · rw [step_callDefined hk] at hr
      obtain ⟨name, j, body, w, x, hp, ha, hl⟩ := runs_callDefined.mp hr
      obtain ⟨a, rfl, rfl, rfl, rfl⟩ := Activation.of_prepare hc hk (hp.mono fun _ _ _ _ h => h.2.1)
      have hbody : a.body.kind ≠ .arguments := by simp [a.body_kind hc.proper]
      have hw : s.frames.size ≤ a.entered.frames.size := (a.extends_entered hn hc.proper).size
      have hx : Rekeyed (LooksUp memoize i (n, s)) i a.entered x :=
        rekeyed_answer hG (Nat.lt_of_lt_of_le hi hw) hbody ha
      obtain ⟨_, _, _, _, _, _, _, rfl⟩ := runs_leaveWith.mp hl
      by_cases hj : a.place = i
      · refine ⟨Nat.le_trans hw hx.1, fun _ _ => ?_⟩
        obtain ⟨f, hf⟩ := exists_frame (Nat.lt_of_lt_of_le hi hw)
        obtain ⟨g, hg, hfg⟩ := hx.2 f hf
        refine ⟨g, hg, .inr ?_⟩
        rcases hfg with hfg | hfg
        · exact ⟨n, s, a, f, .refl, hj, hf, hfg.symm⟩
        · exact hfg
      · exact (carried_prepare carried_rekeyed hcalls (fun _ _ _ _ h => h.2.1.level) hi hj hp).1.trans hx
  · refine ((keeps_rekeyed hcall s s ⟨⟨rfl, rfl⟩, fun _ _ => .of_untouched (.refl s)⟩).runs
      (fun m u v t hm hu hg => ⟨hu.1.trans hg.2.1.level, fun hi htop => ?_⟩) hr).2 hi htop
    have hs := hu.2 hi htop
    refine hs.trans (hG m u v t hg (Nat.lt_of_lt_of_le hi hs.1) ?_)
    rw [hu.1.1]
    exact htop.imp (hn.part_kind hcall hm) id

lemma quiet_of_private {memoize : Bool} {i : Nat} {n : Node} {s : Store} (hn : n.IsInner) (hs : s.Proper)
    (hi : i < s.frames.size) (hprivate : ∀ e ∈ s.functions.entries, e.2 ≠ i) : Quiet memoize i (n, s) := by
  rintro ⟨m, t⟩ hm ⟨_, name, u, _, he⟩
  obtain ⟨_, ht⟩ := hm.extends hn hs
  cases he with
  | copy => exact Nat.lt_irrefl _ (Nat.lt_of_lt_of_le hi ht.size)
  | own _ hplace =>
    obtain ⟨e, he, _, rfl⟩ := Registry.mem_of_get? hplace
    have hfunctions : (t.pushScope .defined).functions = s.functions := ht.functions
    exact hprivate e (hfunctions ▸ he) rfl

namespace Activation

variable {memoize : Bool} {n : Node} {s : Store} (a : Activation memoize n s)

lemma lt_entered : a.place < a.entered.frames.size := by
  obtain ⟨hentered, f, hf, _⟩ := a.entered_eq
  rw [hentered, Store.modifyFrame, Array.size_modify]
  exact lt_of_frame? hf

lemma private_of_current? (hs : s.Proper) (hcurrent : s.current? a.name ≠ none) :
    ∀ e ∈ s.functions.entries, e.2 ≠ a.place := by
  obtain ⟨_, u, f, v, he, _⟩ := runs_openDefined.mp a.opens
  intro e hmem
  generalize a.place = i, a.name = name at he hcurrent ⊢
  cases he with
  | copy => exact Nat.ne_of_lt (hs.place e hmem)
  | own hnone => exact (hcurrent hnone).elim

lemma quiet_of_current? (hn : n.IsInner) (hs : s.Proper) (hcurrent : s.current? a.name ≠ none) :
    Quiet memoize a.place (a.arguments, a.opened) ∧ Quiet memoize a.place (a.body, a.entered) := by
  have hopened := (stable_extends.openDefined settles_extends hs a.opens).1
  have hentered := a.extends_entered hn hs
  have hplace := place_openDefined settles_extends hs a.opens
  have hprivate := a.private_of_current? hs hcurrent
  have hargs : a.arguments.IsInner := hn.child (mem_of_getElem? a.arguments_eq)
  exact ⟨quiet_of_private hargs (hopened.proper hs) hplace (by rwa [hopened.functions]),
    quiet_of_private (a.body_inner hn hs) (hentered.proper hs) a.lt_entered (by rwa [hentered.functions])⟩

end Activation

def Store.leave (s : Store) : Store :=
  { s with calls := s.calls.tail, scopes := s.scopes.tail }

def Store.remember (s : Store) (call : Call) (v : Value) : Store :=
  { s with memo := s.memo.insert call v }

namespace Activation

variable {n : Node} {s : Store} (a : Activation true n s) {v : Value}

lemma settles_answer {w : Store} (ha : (Eval.answer true a.name a.place a.body a.entered).Runs
    (Settles true) (.ok v) w) (hlevel : Level a.entered w) : Settles true n s (.ok v) w.leave := by
  have hp : (Eval.prepare n s).Runs (Settles true) (.ok (a.name, a.place, a.body)) a.entered :=
    runs_prepare.mpr ⟨_, _, a.opens, a.enters⟩
  have hcalls : w.calls = a.place :: s.calls := hlevel.1.trans a.level_entered.1
  have hscopes : w.scopes = .defined :: s.scopes := hlevel.2.trans a.level_entered.2
  refine .of_runs ?_
  rw [step_callDefined a.kind_eq]
  refine runs_callDefined.mpr ⟨_, _, _, _, _, hp, ha, runs_leaveWith.mpr ⟨rfl, _, _, _, _, hcalls, hscopes, ?_⟩⟩
  rw [Store.leave, hcalls, hscopes]
  rfl

lemma settles_known {f : Frame} (hf : a.entered.frame? a.place = some f)
    (hv : a.entered.memo.get? ⟨a.name, f.arguments⟩ = some v) : Settles true n s (.ok v) a.entered.leave :=
  a.settles_answer ((runs_answer hf).mpr (.inl ⟨hv, rfl⟩)) ⟨rfl, rfl⟩

lemma settles_unknown {f g : Frame} {u : Store} (hf : a.entered.frame? a.place = some f)
    (hnone : a.entered.memo.get? ⟨a.name, f.arguments⟩ = none) (hv : Settles true a.body a.entered (.ok v) u)
    (hg : u.frame? a.place = some g) : Settles true n s (.ok v) (u.remember ⟨a.name, g.arguments⟩ v).leave := by
  have hc : (Eval.compute a.name a.place a.body a.entered).Runs (Settles true) (.ok v)
      (u.remember ⟨a.name, g.arguments⟩ v) := runs_compute.mpr ⟨u, g, hv, hg, rfl⟩
  exact a.settles_answer ((runs_answer hf).mpr (.inr ⟨hnone, hc⟩)) hv.level

end Activation

def mutualBody : Node :=
  .branch .conditional [.branch .test [.branch (.binary .equal) [.reference "x", .number 0]],
    .branch .consequence [.number 5], .branch .alternative [.call "g" [.reference "x"]]]

def mutualNext : Node :=
  .branch (.binary .plus) [.number 1, .call "f" [.branch (.binary .minus) [.reference "x", .number 1]]]

def mutualCalls : Node :=
  .program (.defineFunction "f" ["x"] mutualBody) [.defineFunction "g" ["x"] mutualNext,
    .branch .printNumber [.call "f" [.number 1]], .branch .printNumber [.call "f" [.number 0]]]

def mutualDefined : Store :=
  (Store.defineFunction {} "f" ["x"] mutualBody).defineFunction "g" ["x"] mutualNext

lemma length_le_mutualCall : ["x"].length ≤ [(1 : Int)].length :=
  Nat.le_refl _

def mutualCall : Activation true (.call "f" [.number 1]) mutualDefined :=
  .ofNumbers ["x"] [1] (i := 0) (g := { name := .text "f", function := some (.function ["x"] mutualBody) })
    rfl rfl rfl rfl length_le_mutualCall

lemma tree_mutualCalls : Tree .statements mutualCalls := by
  have hx : Tree .expression (.reference "x") := .ofReference (.reference_of "x")
  have hbody : Tree .expression mutualBody := .conditional (.test (.binary hx .number)) (.consequence .number)
    (.alternative (.call_of "g" (by simpa using hx)))
  have hminus : Tree .expression (.branch (.binary .minus) [.reference "x", .number 1]) := .binary hx .number
  have hnext : Tree .expression mutualNext := .binary .number (.call_of "f" (by simpa using hminus))
  refine .program_of ?_
  simp only [forall_mem_cons]
  exact ⟨.functionDefinition (.functionName .identifier) (.function_of _ hbody),
    .functionDefinition (.functionName .identifier) (.function_of _ hnext),
    .printNumber (.call_of "f" (by simpa using .number)), .printNumber (.call_of "f" (by simpa using .number)),
    by simp⟩

lemma reaches_mutualCall : Reaches true (mutualCalls, {}) (.call "f" [.number 1], mutualDefined) := by
  have hprint : Enters true (.program (.branch .printNumber [.call "f" [.number 1]])
      [.branch .printNumber [.call "f" [.number 0]]], mutualDefined)
      (.branch .printNumber [.call "f" [.number 1]], mutualDefined) := .here
  have hcall : Enters true (.branch .printNumber [.call "f" [.number 1]], mutualDefined)
      (.call "f" [.number 1], mutualDefined) := .here
  exact .head (enters_rest (n := mutualCalls) ⟨rfl, rfl⟩ settles_defineFunction)
    (.head (enters_rest ⟨rfl, rfl⟩ settles_defineFunction) (.head hprint (.single hcall)))

/-- A call of a defined function looks up its result under the arguments that its record has when the body is
due, and stores it under those that the record has afterwards. They are the same where no call within the body
takes the record, as when the record is a copy made for this call; otherwise they may be those of such a call. -/
theorem memo_key {p n : Node} {s : Store} (hp : Tree .statements p) (hr : Reaches true (p, {}) (n, s))
    (hk : n.kind = .callDefined) :
    (∀ b w, Enters true (n, s) (b, w) → b.kind = .body → ∃ a : Activation true n s, a.body = b ∧ a.entered = w) ∧
    ∀ a : Activation true n s, ∃ f, a.entered.frame? a.place = some f ∧
      (Quiet true a.place (a.arguments, a.opened) → f.arguments = a.values) ∧
      (s.current? a.name ≠ none → f.arguments = a.values) ∧
      (∀ v, a.entered.memo.get? ⟨a.name, f.arguments⟩ = some v → Settles true n s (.ok v) a.entered.leave) ∧
      ∀ v u, a.entered.memo.get? ⟨a.name, f.arguments⟩ = none → Settles true a.body a.entered (.ok v) u →
        ∃ g, u.frame? a.place = some g ∧ Settles true n s (.ok v) (u.remember ⟨a.name, g.arguments⟩ v).leave ∧
          (g.arguments = f.arguments ∨ LooksUp true a.place (a.body, a.entered) g.arguments) ∧
          (Quiet true a.place (a.body, a.entered) → g.arguments = f.arguments) ∧
          (s.current? a.name ≠ none → g.arguments = f.arguments) := by
  have hreg := hr.regular (regular_program hp)
  have hn : n.IsInner := hreg.tree.inner_of_call (.inr hk)
  refine ⟨fun b w => Activation.of_enters hreg hk, fun a => ?_⟩
  obtain ⟨f, hf⟩ := exists_frame a.lt_entered
  have hpassed : Quiet true a.place (a.arguments, a.opened) → f.arguments = a.values := by
    intro hq
    obtain ⟨f', hf', harguments, -⟩ := a.frame_bound hn hq
    cases hf.symm.trans hf'
    exact harguments
  refine ⟨f, hf, hpassed, fun hcurrent => hpassed (a.quiet_of_current? hn hreg.proper hcurrent).1,
    fun v => a.settles_known hf, fun v u hnone hv => ?_⟩
  have hbody := a.body_inner hn hreg.proper
  have hkind : a.body.kind ≠ .arguments := by simp [a.body_kind hreg.proper]
  obtain ⟨g, hg, hfg⟩ := (hv.rekeyed hbody (a.regular_entered hreg hn) a.lt_entered (.inl hkind)).2 f hf
  have hkept : Quiet true a.place (a.body, a.entered) → g.arguments = f.arguments := by
    intro hq
    obtain ⟨g', hg', hret⟩ := (hv.retained hbody a.lt_entered hq).2 f hf
    cases hg.symm.trans hg'
    exact hret.arguments hkind
  exact ⟨g, hg, a.settles_unknown hf hnone hv hg, hfg, hkept,
    fun hcurrent => hkept (a.quiet_of_current? hn hreg.proper hcurrent).2⟩

theorem memo_key_retaken : mutualCall.values = [.int 1] ∧ ∃ v u g,
    Settles true mutualCall.body mutualCall.entered (.ok v) u ∧ u.frame? mutualCall.place = some g ∧
      g.arguments = [.int 0] ∧ LooksUp true mutualCall.place (mutualCall.body, mutualCall.entered) [.int 0] := by
  have hv : Settles true mutualCall.body mutualCall.entered (.ok (.int 6)) _ :=
    .of_evaluate (d := 20) (by decide +kernel)
  obtain ⟨f, hf, _, _, _, hstore⟩ := (memo_key tree_mutualCalls reaches_mutualCall rfl).2 mutualCall
  cases hf
  obtain ⟨g, hg, _, hkeys, _⟩ := hstore _ _ (by decide +kernel) hv
  have hargs : g.arguments = [.int 0] := by
    have h : ((evaluate true 20 mutualCall.body mutualCall.entered).2.frame? mutualCall.place).map Frame.arguments =
        some [.int 0] := by decide +kernel
    rw [hg] at h
    exact Option.some.inj h
  refine ⟨rfl, _, _, g, hv, hg, hargs, ?_⟩
  rcases hkeys with h | h
  · rw [hargs] at h
    cases h
  · rwa [hargs] at h

theorem memo_misfiled : Tree .statements mutualCalls ∧
    Reaches true (mutualCalls, {}) (.call "f" [.number 1], mutualDefined) ∧ mutualCall.values = [.int 1] ∧
    mutualCall.entered.memo.get? ⟨.text "f", [.int 1]⟩ = none ∧
    ∃ t, Settles true (.call "f" [.number 1]) mutualDefined (.ok (.int 6)) t ∧
      t.memo.get? ⟨.text "f", [.int 1]⟩ = none ∧ t.memo.get? ⟨.text "f", [.int 0]⟩ = some (.int 6) :=
  ⟨tree_mutualCalls, reaches_mutualCall, rfl, by decide +kernel, _, .of_evaluate (d := 20) (by decide +kernel),
    by decide +kernel, by decide +kernel⟩

/-- The result of the call is known when its body is due. -/
def Recalls (n : Node) (s : Store) : Prop :=
  n.kind = .callDefined ∧ ∃ name i body t f v, (prepare n s).Runs (Settles true) (.ok (name, i, body)) t ∧
    t.frame? i = some f ∧ t.memo.get? ⟨name, f.arguments⟩ = some v

lemma step_of_ne {n : Node} (hn : n.kind ≠ .callDefined) : step true n = step false n := by
  unfold step
  split <;> first | rfl | contradiction

lemma answer_of_unknown {name : Value} {i : Nat} (body : Node) {s : Store}
    (h : ∀ f, s.frame? i = some f → s.memo.get? ⟨name, f.arguments⟩ = none) :
    answer true name i body s = answer false name i body s := by
  cases hf : s.frame? i with
  | none => simp [answer, callOf, frameAt, hf, andThen, fail]
  | some f => rw [answer_apply hf, answer_apply hf, if_pos rfl, h f hf, if_neg Bool.false_ne_true]

lemma evaluate_of_not_recalls {n : Node} {s : Store} (h : ∀ c, Reaches true (n, s) c → ¬ Recalls c.1 c.2) (d : Nat) :
    evaluate true d n s = evaluate false d n s := by
  induction d generalizing n s with
  | zero => rfl
  | succ d ih =>
    obtain ⟨r, t, hrun⟩ : ∃ r t, (step true n s).run (evaluate true d) = (r, t) := ⟨_, _, rfl⟩
    have hboth : (step true n s).Runs
        (fun m u r t => evaluate true d m u = (r, t) ∧ evaluate false d m u = (r, t)) r t := by
      refine (runs_iff_run.mpr hrun).visits.mono fun m u r t hv => ⟨hv.2, ?_⟩
      rw [← ih fun c hc => h c (.head (.of_evaluate hv.1) hc), hv.2]
    rw [evaluate, evaluate, hrun, eq_comm, ← runs_iff_run]
    by_cases hk : n.kind = .callDefined
    · rw [step_callDefined hk] at hboth ⊢
      obtain ⟨⟨name, i, body⟩, w, hp, hc⟩ | ⟨e, he, hp⟩ := runs_andThen.mp hboth
      · have hp' : (prepare n s).Runs (Settles true) (.ok (name, i, body)) w :=
          hp.mono_of_ne (by simp) fun _ _ _ _ hm hr => ⟨hr, d, hm.1⟩
        have hanswer : answer true name i body w = answer false name i body w := by
          refine answer_of_unknown body fun f hf => Option.eq_none_iff_forall_ne_some.mpr fun v hv => ?_
          exact h (n, s) .refl ⟨hk, name, i, body, w, f, v, hp', hf, hv⟩
        change ((answer true name i body w).andThen leaveWith).Runs _ r t at hc
        rw [hanswer] at hc
        exact runs_andThen.mpr (.inl ⟨_, w, hp.mono fun _ _ _ _ hm => hm.2, hc.mono fun _ _ _ _ hm => hm.2⟩)
      · exact runs_andThen.mpr (.inr ⟨e, he, hp.mono fun _ _ _ _ hm => hm.2⟩)
    · rw [← step_of_ne hk]
      exact hboth.mono fun _ _ _ _ hm => hm.2

/-- An evaluation is the same without the memo, at every depth, unless it comes to a call whose result is known. -/
theorem memo_unseen (n : Node) (s : Store) : (∀ d, evaluate true d n s = evaluate false d n s) ∨
    ∃ m u, Reaches true (n, s) (m, u) ∧ Recalls m u := by
  by_cases h : ∃ m u, Reaches true (n, s) (m, u) ∧ Recalls m u
  · exact .inr h
  · exact .inl (evaluate_of_not_recalls fun c hc hr => h ⟨c.1, c.2, hc, hr⟩)

def staleProgram : Node :=
  .program (.define "x" (.number 1)) [.defineFunction "f" [] (.reference "x"),
    .branch .printNumber [.call "f" []], .define "x" (.number 2), .branch .printNumber [.call "f" []]]

/-- A result that is known is given again although the function would now come to another one. -/
theorem memo_visible : Tree .statements staleProgram ∧
    (∃ s, Settles true staleProgram {} (.ok .nothing) s ∧ s.out = "1\n1\n") ∧
    (∃ s, Settles false staleProgram {} (.ok .nothing) s ∧ s.out = "1\n2\n") ∧
    ¬ ∀ r out, (∃ s, Settles true staleProgram {} r s ∧ s.out = out) ↔
      ∃ s, Settles false staleProgram {} r s ∧ s.out = out := by
  have ht : Tree .statements staleProgram := by
    refine .program_of fun m hm => ?_
    have hcall : Tree .statement (.branch .printNumber [.call "f" []]) := .printNumber (.call_of "f" (by simp))
    simp only [mem_cons, not_mem_nil, or_false] at hm
    obtain rfl | rfl | rfl | rfl | rfl := hm
    · exact .variableDefinition (.reference_of "x") .number (by decide)
    · exact .functionDefinition (.functionName .identifier) (.function_of [] (.ofReference (.reference_of "x")))
    · exact hcall
    · exact .variableDefinition (.reference_of "x") .number (by decide)
    · exact hcall
  have h₁ : Settles true staleProgram {} (.ok .nothing) _ := .of_evaluate (d := 20) (by decide +kernel)
  have h₂ : Settles false staleProgram {} (.ok .nothing) _ := .of_evaluate (d := 20) (by decide +kernel)
  have ho₁ : (evaluate true 20 staleProgram {}).2.out = "1\n1\n" := by decide +kernel
  have ho₂ : (evaluate false 20 staleProgram {}).2.out = "1\n2\n" := by decide +kernel
  refine ⟨ht, ⟨_, h₁, ho₁⟩, ⟨_, h₂, ho₂⟩, fun h => ?_⟩
  obtain ⟨s, hs, ho⟩ := (h _ _).mp ⟨_, h₁, ho₁⟩
  rw [(hs.unique h₂).2, ho₂] at ho
  exact absurd ho (by decide)

end LispKit.Lisp
