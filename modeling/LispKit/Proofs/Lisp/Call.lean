import LispKit.Proofs.Lisp.Effect

/-! Calls: how the record of a function is opened, bound and left, and that evaluation leaves the calls
and scopes as it found them. -/

namespace LispKit.Lisp

open List Store Course Option

def Store.openAnonymous (s : Store) (function : Node) : Store :=
  { s with
    scopes := .anonymous :: s.scopes
    frames := s.frames.push { name := anonymousName, function := some function }
    calls := s.frames.size :: s.calls }

inductive Entered (s : Store) (name : Value) : Nat → Store → Prop
  | copy {top : Nat} {f : Frame} : s.current? name = some (top, f) →
      Entered s name s.frames.size { s with
        frames := s.frames.push { f with parameters := [], arguments := [], caller := some top }
        calls := s.frames.size :: s.calls }
  | own {i : Nat} : s.current? name = none → s.functions.get? ⟨name⟩ = some i →
      Entered s name i { s with
        frames := s.frames.modify i fun f =>
          { f with parameters := [], arguments := [], caller := s.calls.head? }
        calls := i :: s.calls }

def Node.callee? (n : Node) : Option Value :=
  n.children[0]?.bind fun callee => callee.children[0]?.map Node.value

def Frame.bound (f : Frame) : Frame :=
  { f with bindings := (f.parameters.zip f.arguments).foldl (fun b e => b.insert ⟨e.1⟩ e.2) f.bindings }

namespace Eval

variable {G : Meaning} {n body function : Node} {s t : Store} {i k : Nat} {name v : Value} {memoize : Bool} {f : Frame}
  {u : Unit} {ps : List Value}

lemma runs_bind_ok {α β : Type} {x : Eval α} {f : α → Eval β} {b : β} :
    ((x >>= f) s).Runs G (.ok b) t ↔ ∃ a u, (x s).Runs G (.ok a) u ∧ (f a u).Runs G (.ok b) t :=
  runs_andThen.trans (by simp)

lemma runs_child {c : Node} : (child n k s).Runs G (.ok c) t ↔ n.children[k]? = some c ∧ t = s := by
  unfold child
  cases n.children[k]? with
  | none => simp [fail]
  | some c' => simp [eq_comm]

lemma runs_nameOf : (nameOf n s).Runs G (.ok name) t ↔ (∃ c, n.children[0]? = some c ∧ name = c.value) ∧ t = s := by
  simp only [nameOf, runs_bind_ok, runs_child, pure_apply, runs_done, Except.ok.injEq]
  grind

lemma currentCall_apply (hs : s.calls.head? = some i) : currentCall s = .done (.ok i) s := by
  obtain ⟨is, hs⟩ : ∃ is, s.calls = i :: is := head?_eq_some_iff.mp hs
  simp [currentCall, hs, Course.andThen]

lemma frameAt_apply (hf : s.frame? i = some f) : frameAt i s = .done (.ok f) s := by
  simp [frameAt, hf, Course.andThen]

lemma runs_frameAt : (frameAt i s).Runs G (.ok f) t ↔ s.frame? i = some f ∧ t = s := by
  cases hf : s.frame? i with
  | none => simp [frameAt, hf, fail, Course.andThen]
  | some f' =>
    rw [frameAt_apply hf]
    simp [eq_comm]

lemma definedBinding_apply (hs : s.calls.head? = some i) (hf : s.frame? i = some f) (name : Value) :
    definedBinding name s =
      match f.binding? (s.callerBinding f name) name with
      | some v => .done (.ok v) s
      | none => lookup s.globals name s := by
  simp only [definedBinding, bind_apply, currentCall_apply hs, Course.andThen, frameAt_apply hf,
    get_apply]
  cases f.binding? (s.callerBinding f name) name <;> rfl

lemma runs_functionOf : (functionOf i s).Runs G (.ok function) t ↔
    (∃ f, s.frame? i = some f ∧ f.function = some function) ∧ t = s := by
  simp only [functionOf, runs_bind_ok, runs_frameAt]
  constructor
  · rintro ⟨f, _, ⟨hf, rfl⟩, h⟩
    cases hn : f.function with
    | none => simp [hn, fail] at h
    | some c =>
      simp only [hn, pure_apply, runs_done, Except.ok.injEq] at h
      exact ⟨⟨f, hf, by rw [hn, h.1]⟩, h.2⟩
  · rintro ⟨⟨f, hf, hn⟩, rfl⟩
    exact ⟨f, _, ⟨hf, rfl⟩, by rw [hn]; exact .done _ _⟩

lemma runs_visit_ok : (visit n s).Runs G (.ok v) t ↔ G n s (.ok v) t := by
  simp [visit]

lemma runs_openAnonymous : (openAnonymous n s).Runs G (.ok (i, function)) t ↔
      n.children[0]? = some function ∧ i = s.frames.size ∧ ∃ v, G function (s.openAnonymous function) (.ok v) t := by
  unfold openAnonymous
  simp only [runs_bind_ok, runs_child, runs_visit_ok, modify_apply, get_apply, set_apply, pure_apply,
    runs_done]
  constructor
  · rintro ⟨_, _, ⟨_, rfl⟩, c, _, ⟨hc, rfl⟩, _, _, ⟨h, rfl⟩, _, _, ⟨_, rfl⟩, v, _, hv, hi, rfl⟩
    cases h
    cases hi
    exact ⟨hc, rfl, v, hv⟩
  · rintro ⟨hc, rfl, v, hv⟩
    exact ⟨(), _, ⟨trivial, rfl⟩, _, _, ⟨hc, rfl⟩, _, _, ⟨rfl, rfl⟩, (), _, ⟨trivial, rfl⟩, v, _, hv,
      rfl, rfl⟩

lemma enterDefined_apply (h : Entered s name i t) : enterDefined name s = .done (.ok i) t := by
  cases h with
  | copy hc =>
    simp only [enterDefined, bind_apply, get_apply, Course.andThen, hc]
    rfl
  | own hc hf =>
    simp only [enterDefined, bind_apply, get_apply, Course.andThen, hc, hf]
    rfl

lemma enterDefined_missing (hc : s.current? name = none) (hf : s.functions.get? ⟨name⟩ = none) :
    enterDefined name s = missing name s := by
  simp only [enterDefined, bind_apply, get_apply, Course.andThen, hc, hf]

lemma entered_or_missing (s : Store) (name : Value) :
    (∃ i t, Entered s name i t) ∨ s.current? name = none ∧ s.functions.get? ⟨name⟩ = none := by
  cases hc : s.current? name with
  | some c => exact .inl ⟨_, _, .copy hc⟩
  | none =>
    cases hf : s.functions.get? ⟨name⟩ with
    | some i => exact .inl ⟨_, _, .own hc hf⟩
    | none => exact .inr ⟨rfl, rfl⟩

lemma runs_enterDefined : (enterDefined name s).Runs G (.ok i) t ↔ Entered s name i t := by
  obtain ⟨j, u, he⟩ | ⟨hc, hf⟩ := entered_or_missing s name
  · rw [enterDefined_apply he, runs_done, Except.ok.injEq]
    constructor
    · rintro ⟨rfl, rfl⟩
      exact he
    · intro h
      have heq := (enterDefined_apply h).symm.trans (enterDefined_apply he)
      simpa using heq
  · obtain ⟨e, hm⟩ := missing_apply (α := Nat) name
    rw [enterDefined_missing hc hf, hm]
    constructor
    · simp
    · intro h
      cases h with
      | copy hc' => simp [hc] at hc'
      | own _ hf' => simp [hf] at hf'

lemma callee?_eq_some {name : Value} : n.callee? = some name ↔
    ∃ callee, n.children[0]? = some callee ∧ ∃ c, callee.children[0]? = some c ∧ name = c.value := by
  simp only [Node.callee?, bind_eq_some_iff, map_eq_some_iff, @eq_comm _ name]

lemma runs_openDefined : (openDefined n s).Runs G (.ok (name, i, function)) t ↔
      n.callee? = some name ∧ ∃ u f v, Entered (s.pushScope .defined) name i u ∧ u.frame? i = some f ∧ f.function = some function ∧
        G function u (.ok v) t := by
  simp only [openDefined, runs_bind_ok, runs_child, runs_nameOf, runs_functionOf, runs_visit_ok,
    modify_apply, pure_apply, runs_done]
  constructor
  · rintro ⟨_, _, ⟨_, rfl⟩, callee, _, ⟨hcallee, rfl⟩, _, _, ⟨⟨c, hc, rfl⟩, rfl⟩, j, u, he, _, _,
      ⟨⟨f, hf, hn⟩, rfl⟩, v, _, hv, h, rfl⟩
    cases h
    exact ⟨callee?_eq_some.mpr ⟨callee, hcallee, c, hc, rfl⟩, _, f, v, runs_enterDefined.mp he, hf, hn, hv⟩
  · rintro ⟨hcallee, u, f, v, he, hf, hn, hv⟩
    obtain ⟨callee, hchild, c, hc, rfl⟩ := callee?_eq_some.mp hcallee
    exact ⟨(), _, ⟨trivial, rfl⟩, callee, _, ⟨hchild, rfl⟩, _, _, ⟨⟨c, hc, rfl⟩, rfl⟩, i, u,
      runs_enterDefined.mpr he, _, _, ⟨⟨f, hf, hn⟩, rfl⟩, v, _, hv, rfl, rfl⟩

lemma runs_bindFrom (hf : s.frame? i = some f) :
    (bindFrom i ps k s).Runs G (.ok u) t ↔
      ps.length ≤ (f.arguments.drop k).length ∧ t = s.modifyFrame i fun g =>
        { g with bindings :=
            (ps.zip (f.arguments.drop k)).foldl (fun b e => b.insert ⟨e.1⟩ e.2) g.bindings } := by
  induction ps generalizing k s f t with
  | nil => simp [bindFrom, modifyFrame_self]
  | cons p ps ih =>
    simp only [bindFrom, runs_bind_ok, runs_frameAt]
    have harg : f.arguments[k]? = (f.arguments.drop k).head? := head?_drop.symm
    have htail : f.arguments.drop (k + 1) = (f.arguments.drop k).tail := tail_drop.symm
    constructor
    · rintro ⟨_, _, ⟨hf', rfl⟩, h⟩
      cases hf.symm.trans hf'
      cases hd : f.arguments.drop k with
      | nil => simp [harg, hd, fail] at h
      | cons v rest =>
        simp only [harg, hd, head?_cons, runs_bind_ok, modify_apply, runs_done] at h
        obtain ⟨_, _, ⟨_, rfl⟩, h⟩ := h
        rw [ih (by rw [frame?_modifyFrame, if_pos rfl, hf, map_some]), htail, hd,
          modifyFrame_modifyFrame] at h
        exact ⟨Nat.succ_le_succ h.1, h.2⟩
    · rintro ⟨hle, rfl⟩
      refine ⟨f, s, ⟨hf, rfl⟩, ?_⟩
      cases hd : f.arguments.drop k with
      | nil => simp [hd] at hle
      | cons v rest =>
        rw [hd] at hle
        simp only [harg, hd, head?_cons, runs_bind_ok, modify_apply, runs_done]
        refine ⟨(), _, ⟨trivial, rfl⟩, ?_⟩
        rw [ih (by rw [frame?_modifyFrame, if_pos rfl, hf, map_some]), htail, hd,
          modifyFrame_modifyFrame]
        exact ⟨Nat.le_of_succ_le_succ hle, rfl⟩

lemma runs_bind : (Eval.bind i s).Runs G (.ok u) t ↔
    ∃ f, s.frame? i = some f ∧ f.parameters.length ≤ f.arguments.length ∧ t = s.modifyFrame i Frame.bound := by
  simp only [Eval.bind, runs_bind_ok, runs_frameAt]
  constructor
  · rintro ⟨f, _, ⟨hf, rfl⟩, h⟩
    obtain ⟨hle, rfl⟩ := (runs_bindFrom hf).mp h
    refine ⟨f, hf, hle, modifyFrame_congr fun g hg => ?_⟩
    cases hf.symm.trans hg
    rfl
  · rintro ⟨f, hf, hle, rfl⟩
    refine ⟨f, _, ⟨hf, rfl⟩, (runs_bindFrom hf).mpr ⟨hle, modifyFrame_congr fun g hg => ?_⟩⟩
    cases hf.symm.trans hg
    rfl

lemma runs_passArguments : (passArguments n i function s).Runs G (.ok body) t ↔
      function.children[1]? = some body ∧ ∃ args v u, n.children[1]? = some args ∧ G args s (.ok v) u ∧
        ∃ f, u.frame? i = some f ∧ f.parameters.length ≤ f.arguments.length ∧ t = u.modifyFrame i Frame.bound := by
  simp only [passArguments, runs_bind_ok, runs_child, runs_visit_ok, runs_bind]
  constructor
  · rintro ⟨args, _, ⟨hargs, rfl⟩, v, u, hv, _, _, ⟨f, hf, hle, rfl⟩, hbody, rfl⟩
    exact ⟨hbody, args, v, u, hargs, hv, f, hf, hle, rfl⟩
  · rintro ⟨hbody, args, v, u, hargs, hv, f, hf, hle, rfl⟩
    exact ⟨args, _, ⟨hargs, rfl⟩, v, u, hv, (), _, ⟨f, hf, hle, rfl⟩, hbody, rfl⟩

lemma runs_leaveCall : (leaveCall s).Runs G (.ok u) t ↔
    ∃ i is c cs, s.calls = i :: is ∧ s.scopes = c :: cs ∧ t = { s with calls := is, scopes := cs } := by
  cases hi : s.calls with
  | nil => simp [leaveCall, hi, Course.andThen, fail]
  | cons i is =>
    cases hc : s.scopes with
    | nil => simp [leaveCall, hi, hc, Course.andThen, fail]
    | cons c cs => simp [leaveCall, hi, hc, Course.andThen, and_assoc]

lemma runs_callOf {call : Call} : (callOf name i s).Runs G (.ok call) t ↔
    (∃ f, s.frame? i = some f ∧ call = ⟨name, f.arguments⟩) ∧ t = s := by
  simp only [callOf, runs_bind_ok, runs_frameAt, pure_apply, runs_done, Except.ok.injEq]
  grind

lemma runs_remember : (remember name i v s).Runs G (.ok u) t ↔
    ∃ f, s.frame? i = some f ∧ t = { s with memo := s.memo.insert ⟨name, f.arguments⟩ v } := by
  simp only [remember, runs_bind_ok, runs_callOf, modify_apply, runs_done]
  grind

lemma runs_compute :
    (compute name i body s).Runs G (.ok v) t ↔
      ∃ u f, G body s (.ok v) u ∧ u.frame? i = some f ∧
        t = { u with memo := u.memo.insert ⟨name, f.arguments⟩ v } := by
  simp only [compute, runs_bind_ok, runs_visit_ok, runs_remember, pure_apply, runs_done,
    Except.ok.injEq]
  constructor
  · rintro ⟨_, u, hv, _, _, ⟨f, hf, rfl⟩, rfl, rfl⟩
    exact ⟨u, f, hv, hf, rfl⟩
  · rintro ⟨u, f, hv, hf, rfl⟩
    exact ⟨v, u, hv, (), _, ⟨f, hf, rfl⟩, rfl, rfl⟩

lemma answer_apply (hf : s.frame? i = some f) :
    answer memoize name i body s =
      match if memoize then s.memo.get? ⟨name, f.arguments⟩ else none with
      | some v => .done (.ok v) s
      | none => compute name i body s := by
  simp only [answer, callOf, bind_apply, frameAt_apply hf, Course.andThen, pure_apply, get_apply]
  cases (if memoize then s.memo.get? ⟨name, f.arguments⟩ else none) <;> rfl

lemma runs_answer (hf : s.frame? i = some f) : (answer memoize name i body s).Runs G (.ok v) t ↔
      (if memoize then s.memo.get? ⟨name, f.arguments⟩ else none) = some v ∧ t = s ∨
        (if memoize then s.memo.get? ⟨name, f.arguments⟩ else none) = none ∧
          (compute name i body s).Runs G (.ok v) t := by
  rw [answer_apply hf]
  cases (if memoize then s.memo.get? ⟨name, f.arguments⟩ else none) with
  | none => simp
  | some w => simp [eq_comm]

lemma frame_of_runs_answer (h : (answer memoize name i body s).Runs G (.ok v) t) : ∃ f, s.frame? i = some f := by
  obtain ⟨_, _, hc, _⟩ := runs_bind_ok.mp h
  obtain ⟨⟨f, hf, _⟩, _⟩ := runs_callOf.mp hc
  exact ⟨f, hf⟩

lemma runs_prepare : (prepare n s).Runs G (.ok (name, i, body)) t ↔
      ∃ function u, (openDefined n s).Runs G (.ok (name, i, function)) u ∧
        (passArguments n i function u).Runs G (.ok body) t := by
  simp only [prepare, runs_bind_ok, pure_apply, runs_done]
  constructor
  · rintro ⟨⟨_, _, function⟩, u, ho, _, _, hp, h, rfl⟩
    cases h
    exact ⟨function, u, ho, hp⟩
  · rintro ⟨function, u, ho, hp⟩
    exact ⟨(name, i, function), u, ho, body, _, hp, rfl, rfl⟩

lemma runs_leaveWith {w : Value} :
    (leaveWith v s).Runs G (.ok w) t ↔
      w = v ∧ ∃ i is c cs, s.calls = i :: is ∧ s.scopes = c :: cs ∧
        t = { s with calls := is, scopes := cs } := by
  simp only [leaveWith, runs_bind_ok, runs_leaveCall, pure_apply, runs_done, Except.ok.injEq]
  constructor
  · rintro ⟨_, _, h, rfl, rfl⟩
    exact ⟨rfl, h⟩
  · rintro ⟨rfl, h⟩
    exact ⟨(), _, h, rfl, rfl⟩

lemma runs_callAnonymous : (callAnonymous n s).Runs G (.ok v) t ↔
      ∃ i function u body w x, (openAnonymous n s).Runs G (.ok (i, function)) u ∧
        (passArguments n i function u).Runs G (.ok body) w ∧ G body w (.ok v) x ∧ (leaveWith v x).Runs G (.ok v) t := by
  simp only [callAnonymous, runs_bind_ok, runs_visit_ok]
  constructor
  · rintro ⟨⟨i, function⟩, u, ho, body, w, hp, r, x, hb, hl⟩
    obtain rfl := (runs_leaveWith.mp hl).1
    exact ⟨i, function, u, body, w, x, ho, hp, hb, hl⟩
  · rintro ⟨i, function, u, body, w, x, ho, hp, hb, hl⟩
    exact ⟨(i, function), u, ho, body, w, hp, v, x, hb, hl⟩

lemma runs_callDefined : (callDefined memoize n s).Runs G (.ok v) t ↔
      ∃ name i body u w, (prepare n s).Runs G (.ok (name, i, body)) u ∧
        (answer memoize name i body u).Runs G (.ok v) w ∧ (leaveWith v w).Runs G (.ok v) t := by
  simp only [callDefined, conclude, runs_bind_ok]
  constructor
  · rintro ⟨⟨name, i, body⟩, u, hp, r, w, ha, hl⟩
    obtain rfl := (runs_leaveWith.mp hl).1
    exact ⟨name, i, body, u, w, hp, ha, hl⟩
  · rintro ⟨name, i, body, u, w, hp, ha, hl⟩
    exact ⟨(name, i, body), u, hp, v, w, ha, hl⟩

variable {K : Node → Store → Prop} {m : Node}

lemma visits_bind {α β : Type} {x : Eval α} {f : α → Eval β} : ((x >>= f) s).Visits G K m t ↔ (x s).Visits G K m t ∨
      ∃ a u, (x s).Runs (fun n s r t => K n s ∧ G n s r t) (.ok a) u ∧ (f a u).Visits G K m t :=
  visits_andThen

lemma Reads.not_visits {α : Type} {x : Eval α} (hx : Reads x) : ¬ (x s).Visits G K m t := by
  obtain ⟨r, hr⟩ := hx s
  rw [hr]
  exact visits_done

lemma visits_visit_iff : (visit n s).Visits G K m t ↔ m = n ∧ t = s := by
  simp [visit]

lemma not_visits_enterDefined : ¬ (enterDefined name s).Visits G K m t := by
  obtain ⟨i, u, he⟩ | ⟨hc, hf⟩ := entered_or_missing s name
  · rw [enterDefined_apply he]
    exact visits_done
  · rw [enterDefined_missing hc hf]
    exact (constant_missing name).reads.not_visits

lemma not_visits_bindFrom : ¬ (bindFrom i ps k s).Visits G K m t := by
  induction ps generalizing s k with
  | nil => exact (constant_pure ()).reads.not_visits
  | cons p ps ih =>
    rw [bindFrom, visits_bind]
    rintro (h | ⟨f, u, _, h⟩)
    · exact (reads_frameAt i).not_visits h
    · cases hv : f.arguments[k]? with
      | none => simp [hv, fail] at h
      | some v =>
        rw [hv] at h
        obtain h | ⟨_, w, _, h⟩ := visits_bind.mp h
        · simp at h
        · exact ih h

lemma not_visits_leaveWith : ¬ (leaveWith v s).Visits G K m t := by
  cases hi : s.calls with
  | nil => simp [leaveWith, leaveCall, hi, Course.andThen, fail]
  | cons i is =>
    cases hc : s.scopes with
    | nil => simp [leaveWith, leaveCall, hi, hc, Course.andThen, fail]
    | cons c cs => simp [leaveWith, leaveCall, hi, hc, Course.andThen]

lemma visits_openAnonymous : (openAnonymous n s).Visits G K m t ↔ n.children[0]? = some m ∧ t = s.openAnonymous m := by
  cases hn : n.children[0]? with
  | none => simp [openAnonymous, child, hn, fail, Course.andThen]
  | some function =>
    have hs : openAnonymous n s = .visit function (s.openAnonymous function)
        fun _ s' => .done (.ok (s.frames.size, function)) s' := by
      simp only [openAnonymous, child, hn]
      rfl
    rw [hs, visits_visit]
    simp only [visits_done, and_false, exists_false, or_false, Option.some.injEq]
    constructor
    · rintro ⟨rfl, rfl⟩
      exact ⟨rfl, rfl⟩
    · rintro ⟨rfl, rfl⟩
      exact ⟨rfl, rfl⟩

lemma not_visits_child : ¬ (child n k s).Visits G K m t :=
  (constant_child n k).reads.not_visits

lemma not_visits_nameOf : ¬ (nameOf n s).Visits G K m t :=
  (constant_nameOf n).reads.not_visits

lemma not_visits_functionOf : ¬ (functionOf i s).Visits G K m t :=
  (reads_functionOf i).not_visits

lemma visits_openDefined : (openDefined n s).Visits G K m t ↔ ∃ name i f, n.callee? = some name ∧
      Entered (s.pushScope .defined) name i t ∧ t.frame? i = some f ∧ f.function = some m := by
  simp only [openDefined, visits_bind, modify_apply, pure_apply, visits_done, not_visits_child,
    not_visits_nameOf, not_visits_enterDefined, not_visits_functionOf, visits_visit_iff, runs_done,
    runs_child, runs_nameOf, runs_enterDefined, runs_functionOf, false_or, and_false, exists_false, or_false,
    callee?_eq_some]
  constructor
  · rintro ⟨_, _, ⟨_, rfl⟩, callee, _, ⟨hcallee, rfl⟩, name, _, ⟨⟨c, hc, hname⟩, rfl⟩, i, u, he, _, _,
      ⟨⟨f, hf, hfun⟩, rfl⟩, rfl, rfl⟩
    exact ⟨name, i, f, ⟨callee, hcallee, c, hc, hname⟩, he, hf, hfun⟩
  · rintro ⟨name, i, f, ⟨callee, hcallee, c, hc, hname⟩, he, hf, hfun⟩
    exact ⟨(), _, ⟨trivial, rfl⟩, callee, _, ⟨hcallee, rfl⟩, name, _, ⟨⟨c, hc, hname⟩, rfl⟩, i, t, he, m, _,
      ⟨⟨f, hf, hfun⟩, rfl⟩, rfl, rfl⟩

lemma visits_passArguments : (passArguments n i function s).Visits G K m t ↔ n.children[1]? = some m ∧ t = s := by
  have hbind : ∀ {u}, ¬ (Eval.bind i u).Visits G K m t := by
    intro u h
    obtain h | ⟨f, w, _, h⟩ := visits_bind.mp h
    · exact (reads_frameAt i).not_visits h
    · exact not_visits_bindFrom h
  simp only [passArguments, visits_bind, not_visits_child, hbind, visits_visit_iff, runs_child, false_or,
    and_false, exists_false, or_false]
  constructor
  · rintro ⟨_, _, ⟨hm, rfl⟩, rfl, rfl⟩
    exact ⟨hm, rfl⟩
  · rintro ⟨hm, rfl⟩
    exact ⟨m, t, ⟨hm, rfl⟩, rfl, rfl⟩

lemma visits_callAnonymous (h : (callAnonymous n s).Visits G K m t) :
    (n.children[0]? = some m ∧ t = s.openAnonymous m) ∨
      ∃ i function u, (openAnonymous n s).Runs (fun n s r t => K n s ∧ G n s r t) (.ok (i, function)) u ∧
        ((n.children[1]? = some m ∧ t = u) ∨
          (passArguments n i function u).Runs (fun n s r t => K n s ∧ G n s r t) (.ok m) t) := by
  obtain h | ⟨⟨i, function⟩, u, ho, h⟩ := visits_bind.mp h
  · exact .inl (visits_openAnonymous.mp h)
  refine .inr ⟨i, function, u, ho, ?_⟩
  obtain h | ⟨body, w, hp, h⟩ := visits_bind.mp h
  · exact .inl (visits_passArguments.mp h)
  obtain h | ⟨v, x, _, h⟩ := visits_bind.mp h
  · obtain ⟨rfl, rfl⟩ := visits_visit_iff.mp h
    exact .inr hp
  · exact (not_visits_leaveWith h).elim

lemma visits_compute (h : (compute name i body s).Visits G K m t) : m = body ∧ t = s := by
  obtain h | ⟨v, w, _, h⟩ := visits_bind.mp h
  · exact visits_visit_iff.mp h
  obtain h | ⟨_, x, _, h⟩ := visits_bind.mp h
  · obtain h | ⟨call, y, _, h⟩ := visits_bind.mp h
    · exact ((reads_callOf name i).not_visits h).elim
    · exact (visits_done h).elim
  · exact (visits_done h).elim

lemma visits_answer (h : (answer memoize name i body s).Visits G K m t) : m = body ∧ t = s := by
  cases hf : s.frame? i with
  | none => simp [answer, callOf, frameAt, hf, fail, Course.andThen] at h
  | some f =>
    rw [answer_apply hf] at h
    cases hm : (if memoize then s.memo.get? ⟨name, f.arguments⟩ else none) with
    | some v => simp [hm] at h
    | none =>
      rw [hm] at h
      exact visits_compute h

lemma visits_callDefined (h : (callDefined memoize n s).Visits G K m t) :
    (openDefined n s).Visits G K m t ∨ ∃ name i function u,
      (openDefined n s).Runs (fun n s r t => K n s ∧ G n s r t) (.ok (name, i, function)) u ∧
        ((n.children[1]? = some m ∧ t = u) ∨
          (passArguments n i function u).Runs (fun n s r t => K n s ∧ G n s r t) (.ok m) t) := by
  obtain h | ⟨⟨name, i, body⟩, w, hp, h⟩ := visits_bind.mp h
  · obtain h | ⟨⟨name, i, function⟩, u, ho, h⟩ := visits_bind.mp h
    · exact .inl h
    refine .inr ⟨name, i, function, u, ho, ?_⟩
    obtain h | ⟨body, w, _, h⟩ := visits_bind.mp h
    · exact .inl (visits_passArguments.mp h)
    · exact (visits_done h).elim
  · obtain ⟨function, u, ho, hb⟩ := runs_prepare.mp hp
    refine .inr ⟨name, i, function, u, ho, .inr ?_⟩
    obtain h | ⟨v, x, _, h⟩ := visits_bind.mp h
    · obtain ⟨rfl, rfl⟩ := visits_answer h
      exact hb
    · exact (not_visits_leaveWith h).elim

end Eval

def Level (s t : Store) : Prop :=
  t.calls = s.calls ∧ t.scopes = s.scopes

lemma Level.trans {s t u : Store} (h : Level s t) (h' : Level t u) : Level s u :=
  ⟨h'.1.trans h.1, h'.2.trans h.2⟩

lemma Plain.level {n : Node} {s t : Store} (h : Plain n s t) : Level s t := by
  cases h <;> exact ⟨rfl, rfl⟩

lemma Entered.calls {s t : Store} {name : Value} {i : Nat} (h : Entered s name i t) :
    t.calls = i :: s.calls ∧ t.scopes = s.scopes := by
  cases h <;> exact ⟨rfl, rfl⟩

namespace Eval

section

variable {memoize : Bool} {G : Meaning} {n : Node} {s t : Store} {i : Nat} {name : Value} {v : Value}
variable (hG : ∀ n s v t, G n s (.ok v) t → Level s t) {function body : Node}

include hG

lemma calls_openAnonymous (h : (openAnonymous n s).Runs G (.ok (i, function)) t) :
    t.calls = i :: s.calls ∧ t.scopes = .anonymous :: s.scopes := by
  obtain ⟨_, rfl, v, hv⟩ := runs_openAnonymous.mp h
  exact hG _ _ _ _ hv

lemma calls_openDefined (h : (openDefined n s).Runs G (.ok (name, i, function)) t) :
    t.calls = i :: s.calls ∧ t.scopes = .defined :: s.scopes := by
  obtain ⟨_, u, f, v, he, _, _, hv⟩ := runs_openDefined.mp h
  obtain ⟨hc, hs⟩ := hG _ _ _ _ hv
  exact ⟨hc.trans he.calls.1, hs.trans he.calls.2⟩

lemma level_passArguments (h : (passArguments n i function s).Runs G (.ok body) t) : Level s t := by
  obtain ⟨_, args, v, u, _, hv, f, _, _, rfl⟩ := runs_passArguments.mp h
  exact hG args s v u hv

lemma calls_prepare (h : (prepare n s).Runs G (.ok (name, i, body)) t) :
    t.calls = i :: s.calls ∧ t.scopes = .defined :: s.scopes := by
  obtain ⟨function, u, ho, hp⟩ := runs_prepare.mp h
  obtain ⟨hc, hs⟩ := level_passArguments hG hp
  obtain ⟨hc', hs'⟩ := calls_openDefined hG ho
  exact ⟨hc.trans hc', hs.trans hs'⟩

lemma level_answer (h : (answer memoize name i body s).Runs G (.ok v) t) : Level s t := by
  obtain ⟨f, hf⟩ := frame_of_runs_answer h
  obtain ⟨_, rfl⟩ | ⟨_, hc⟩ := (runs_answer hf).mp h
  · exact ⟨rfl, rfl⟩
  · obtain ⟨u, g, hv, _, rfl⟩ := runs_compute.mp hc
    exact hG body s v u hv

lemma level_callAnonymous (h : (callAnonymous n s).Runs G (.ok v) t) : Level s t := by
  obtain ⟨i, function, u, body, w, x, ho, hp, hb, hl⟩ := runs_callAnonymous.mp h
  obtain ⟨hc, hs⟩ := calls_openAnonymous hG ho
  obtain ⟨hc', hs'⟩ := (level_passArguments hG hp).trans (hG _ _ _ _ hb)
  obtain ⟨_, j, js, c, cs, hcalls, hscopes, rfl⟩ := runs_leaveWith.mp hl
  rw [hc', hc, List.cons.injEq] at hcalls
  rw [hs', hs, List.cons.injEq] at hscopes
  exact ⟨hcalls.2.symm, hscopes.2.symm⟩

lemma level_callDefined (h : (callDefined memoize n s).Runs G (.ok v) t) : Level s t := by
  obtain ⟨name, i, body, u, w, hp, ha, hl⟩ := runs_callDefined.mp h
  obtain ⟨hc, hs⟩ := calls_prepare hG hp
  obtain ⟨hc', hs'⟩ := level_answer hG ha
  obtain ⟨_, j, js, c, cs, hcalls, hscopes, rfl⟩ := runs_leaveWith.mp hl
  rw [hc', hc, List.cons.injEq] at hcalls
  rw [hs', hs, List.cons.injEq] at hscopes
  exact ⟨hcalls.2.symm, hscopes.2.symm⟩

end

lemma step_callAnonymous {memoize : Bool} {n : Node} (hn : n.kind = .callAnonymous) :
    step memoize n = callAnonymous n := by
  simp only [step, hn]

lemma step_callDefined {memoize : Bool} {n : Node} (hn : n.kind = .callDefined) :
    step memoize n = callDefined memoize n := by
  simp only [step, hn]

end Eval

lemma Settles.level {memoize : Bool} {n : Node} {s t : Store} {v : Value}
    (h : Settles memoize n s (.ok v) t) : Level s t := by
  refine Settles.induction_ok (Q := fun _ s _ t => Level s t) (fun n s v t hr => ?_) h
  have hG : ∀ m u v t, (Enters memoize (n, s) (m, u) ∧ Settles memoize m u (.ok v) t ∧
      ∀ w, (.ok v : Except Fault Value) = .ok w → Level u t) → Level u t := fun _ _ v _ h => h.2.2 v rfl
  by_cases hc : n.IsCall
  · obtain hn | hn := hc
    · rw [Eval.step_callAnonymous hn] at hr
      exact Eval.level_callAnonymous hG hr
    · rw [Eval.step_callDefined hn] at hr
      exact Eval.level_callDefined hG hr
  · have htrans : ∀ s t u, Level s t → Level t u → Level s u := fun _ _ _ => Level.trans
    have hk : Eval.Keeps n.Part Level (Eval.step memoize n) :=
      Eval.keeps_step htrans (fun _ _ => Plain.level) (fun _ _ h => h.1) hc
    exact (hk s s ⟨rfl, rfl⟩).runs (fun m u v t _ hu hm => hu.trans (hG m u v t hm)) hr

lemma settles_level {memoize : Bool} (n : Node) (s : Store) (v : Value) (t : Store) :
    Settles memoize n s (.ok v) t → Level s t :=
  Settles.level

end LispKit.Lisp
