import LispKit.Proofs.Lisp.Parameter

/-! Variables in the arguments of a call: what they are found to be, against what they are before the call. -/

namespace LispKit.Lisp

open Eval Store Course

structure Opening (memoize : Bool) (n : Node) (s : Store) where
  place : Nat
  function : Node
  arguments : Node
  opened : Store
  arguments_eq : n.children[1]? = some arguments
  opens : (n.kind = .callAnonymous ∧
      (Eval.openAnonymous n s).Runs (Settles memoize) (.ok (place, function)) opened) ∨
    (n.kind = .callDefined ∧
      ∃ name, (Eval.openDefined n s).Runs (Settles memoize) (.ok (name, place, function)) opened)

def Inside (memoize : Bool) : Node × Store → Node × Store → Prop :=
  Relation.ReflTransGen fun c c' => Enters memoize c c' ∧ c'.1.kind ≠ .body

lemma Inside.reaches {memoize : Bool} {c c' : Node × Store} (h : Inside memoize c c') : Reaches memoize c c' :=
  Relation.ReflTransGen.mono (fun _ _ h => h.1) _ _ h

def Node.IsHeader (n : Node) : Prop :=
  Tree .function n ∨ Tree .parameters n ∨ Tree .references n

lemma Node.IsHeader.kind_ne {n : Node} (h : n.IsHeader) : n.kind ≠ .reference ∧ ¬ n.IsCall := by
  obtain h | h | h := h <;> cases h <;> simp [Node.kind, Node.IsCall]

lemma Eval.visits_visitRest {G : Meaning} {K : Node → Store → Prop} {kind : Kind} {rest m : Node} {s t : Store}
    (h : (Eval.visitRest kind rest s).Visits G K m t) : m = rest := by
  rw [Eval.visitRest] at h
  split at h
  · obtain ⟨h, _⟩ | ⟨_, _, _, _, h⟩ := visits_visit.mp h
    · exact h
    · exact (visits_done h).elim
  · exact (visits_done h).elim

lemma Enters.header {memoize : Bool} {n m : Node} {s t : Store} (h : Enters memoize (n, s) (m, t))
    (hn : n.IsHeader) : m.IsHeader := by
  obtain hn | hn | hn := hn
  · cases hn with
    | function hx _ =>
      obtain ⟨rfl, _⟩ | ⟨_, _, _, _, h⟩ := visits_visit.mp h
      · exact .inr (.inl hx)
      · exact (visits_done h).elim
  · cases hn with
    | parameters hx =>
      obtain ⟨rfl, _⟩ | ⟨_, _, _, _, h⟩ := visits_visit.mp h
      · exact .inr (.inr hx)
      · exact (visits_done h).elim
  · cases hn with
    | noReferences => exact (visits_done h).elim
    | @references _ _ _ rest hx hrest =>
      cases hx with
      | reference =>
        obtain ⟨_, _, _, calls, _, _, _, _⟩ := s
        cases calls with
        | nil => exact (visits_done h).elim
        | cons i is =>
          have hv : ((Eval.visitRest .parameterList rest _).andThen fun _ u => .done (.ok Value.nothing) u).Visits
              (Settles memoize) (fun _ _ => True) m t := h
          obtain hv | ⟨_, _, _, hv⟩ := visits_andThen.mp hv
          · rw [visits_visitRest hv]
            exact .inr (.inr hrest)
          · exact (visits_done hv).elim

lemma Inside.header {memoize : Bool} {c c' : Node × Store} (h : Inside memoize c c') (hc : c.1.IsHeader) :
    c'.1.IsHeader := by
  induction h with
  | refl => exact hc
  | tail _ he ih => exact he.1.header ih

section

variable {memoize : Bool} {n m : Node} {s t : Store}

lemma Opening.isCall (o : Opening memoize n s) : n.IsCall := by
  obtain ⟨hk, _⟩ | ⟨hk, _⟩ := o.opens
  · exact .inl hk
  · exact .inr hk

lemma Opening.enters (o : Opening memoize n s) : Enters memoize (n, s) (o.arguments, o.opened) := by
  have hargs {G K i function} : (Eval.passArguments n i function o.opened).Visits G K o.arguments o.opened :=
    visits_passArguments.mpr ⟨o.arguments_eq, rfl⟩
  obtain ⟨hk, ho⟩ | ⟨hk, name, ho⟩ := o.opens
  · rw [Enters, step_callAnonymous hk]
    exact ho.visits_after (visits_andThen.mpr (.inl hargs))
  · rw [Enters, step_callDefined hk]
    exact visits_andThen.mpr (.inl (ho.visits_after (visits_andThen.mpr (.inl hargs))))

lemma Enters.of_call (h : Enters memoize (n, s) (m, t)) (ht : n.IsTree) (hs : s.Proper) (hn : n.IsCall) :
    Tree .function m ∨ (∃ o : Opening memoize n s, o.arguments = m ∧ o.opened = t) ∨ m.kind = .body := by
  have hinner := ht.inner_of_call hn
  obtain hk | hk := hn
  · rw [Enters, step_callAnonymous hk] at h
    obtain ⟨hm, _⟩ | ⟨i, function, u, ho, h⟩ := visits_callAnonymous h
    · exact .inl (hinner.callee hk hm)
    · replace ho := ho.mono fun _ _ _ _ h => h.2
      obtain ⟨hm, rfl⟩ | hp := h
      · exact .inr (.inl ⟨⟨i, function, m, t, hm, .inl ⟨hk, ho⟩⟩, rfl, rfl⟩)
      · have hf := hinner.callee hk (runs_openAnonymous.mp ho).1
        exact .inr (.inr (hf.body_of_function (runs_passArguments.mp hp).1))
  · obtain hf | ⟨name, i, function, u, ho, _, ⟨hm, rfl⟩ | ⟨_, hb⟩⟩ := h.of_callDefined hs hk
    · exact .inl hf
    · exact .inr (.inl ⟨⟨i, function, m, t, hm, .inr ⟨hk, name, ho⟩⟩, rfl, rfl⟩)
    · exact .inr (.inr hb)

lemma Inside.innermost (o : Opening memoize n s) (hc : Regular (n, s))
    (h : Inside memoize (o.arguments, o.opened) (m, t)) : m.IsHeader ∨
      ∃ (n' : Node) (s' : Store) (o' : Opening memoize n' s'),
        ((n', s') = (n, s) ∨ Inside memoize (o.arguments, o.opened) (n', s')) ∧
        Reaches memoize (o'.arguments, o'.opened) (m, t) ∧ Level o'.opened t := by
  generalize hd : (m, t) = d at h
  -- On the way one is in the header of a called function or in the arguments of the last call entered.
  induction h generalizing m t with
  | refl =>
    cases hd
    exact .inr ⟨n, s, o, .inl rfl, .refl, rfl, rfl⟩
  | @tail d e h he ih =>
    cases hd
    obtain hheader | ⟨n', s', o', ho', hr, hl⟩ := ih (m := d.1) (t := d.2) rfl
    · exact .inl (he.1.header hheader)
    · by_cases hcall : d.1.IsCall
      · have hreg : Regular d := (Inside.reaches h).regular (o.enters.regular hc)
        obtain hm | ⟨p, rfl, rfl⟩ | hm := he.1.of_call hreg.tree hreg.proper hcall
        · exact .inl (.inl hm)
        · exact .inr ⟨d.1, d.2, p, .inr h, .refl, rfl, rfl⟩
        · exact (he.2 hm).elim
      · exact .inr ⟨n', s', o', ho', hr.tail he.1, hl.trans (he.1.level hcall)⟩

end

variable {f : Frame} {names : List Value} {name : Value}

lemma Store.bindings_modifyFrame {s : Store} {i j : Nat} {F : Frame → Frame} (hF : ∀ f, (F f).bindings = f.bindings)
    (hf : s.frame? j = some f) : ∃ g, (s.modifyFrame i F).frame? j = some g ∧ g.bindings = f.bindings := by
  rw [frame?_modifyFrame, hf]
  split
  · exact ⟨F f, rfl, hF f⟩
  · exact ⟨f, rfl, rfl⟩

lemma Store.bindings_addParameters {s : Store} {i j : Nat}
    (hf : s.frame? j = some f) : ∃ g, (s.addParameters i names).frame? j = some g ∧ g.bindings = f.bindings :=
  bindings_modifyFrame (F := fun f => { f with parameters := f.parameters ++ names }) (fun _ => rfl) hf

lemma Entered.bindings {s t : Store} {i j : Nat} (h : Entered s name i t)
    (hf : s.frame? j = some f) : ∃ g, t.frame? j = some g ∧ g.bindings = f.bindings := by
  cases h with
  | copy => exact ⟨f, (Untouched.push _ (lt_of_frame? hf)).2.trans hf, rfl⟩
  | own => exact bindings_modifyFrame (fun _ => rfl) hf

lemma Eval.bindings_openDefined {memoize : Bool} {n e function : Node} {s t : Store} {i j : Nat}
    (h : (Eval.openDefined n s).Runs (Settles memoize) (.ok (name, i, function)) t) (hd : Declared names e function)
    (hf : s.frame? j = some f) : ∃ g, t.frame? j = some g ∧ g.bindings = f.bindings := by
  obtain ⟨_, u, _, he, _, rfl⟩ := eq_openDefined h hd
  obtain ⟨g, hg, hgf⟩ := he.bindings hf
  obtain ⟨k, hk, hkg⟩ := bindings_addParameters (i := i) hg
  exact ⟨k, hk, hkg.trans hgf⟩

def Store.topBinding (s : Store) (name : Value) : Option Value :=
  (s.calls.head?.bind s.frame?).bind fun f => f.bindings.get? ⟨name⟩

namespace Opening

variable {memoize : Bool} {n m : Node} {s u : Store} (o : Opening memoize n s)

section

variable (hc : Regular (n, s))

include hc

lemma extends_opened : o.arguments.IsInner ∧ Extends s o.opened :=
  o.enters.extends (hc.tree.inner_of_call o.isCall) hc.proper

lemma extends_use (hr : Reaches memoize (o.arguments, o.opened) (m, u)) : Extends s u := by
  obtain ⟨hargs, ho⟩ := o.extends_opened hc
  exact ho.trans (hr.extends hargs (ho.proper hc.proper)).2

lemma frame_anonymous (hk : n.kind = .callAnonymous) :
    o.place = s.frames.size ∧ o.opened.calls = o.place :: s.calls ∧ o.opened.scopes = .anonymous :: s.scopes ∧
      ∃ f, o.opened.frame? o.place = some f ∧ f.bindings = {} := by
  obtain ⟨_, ho⟩ | ⟨hk', _⟩ := o.opens
  · obtain ⟨hcalls, hscopes⟩ := calls_openAnonymous settles_level ho
    obtain ⟨hf, hi, v, hv⟩ := runs_openAnonymous.mp ho
    obtain ⟨names, e, hd⟩ := ((hc.tree.inner_of_call o.isCall).callee hk hf).declared
    obtain ⟨_, hopened⟩ := hv.unique (hd.settles (i := s.frames.size) rfl)
    have hnew : (s.openAnonymous o.function).frame? s.frames.size =
        some { name := anonymousName, function := some o.function } := Array.getElem?_push_size
    refine ⟨hi, hcalls, hscopes, ?_⟩
    rw [hopened, hi]
    exact bindings_addParameters hnew
  · rw [hk] at hk'
    cases hk'

lemma quiet_anonymous (hk : n.kind = .callAnonymous) : Quiet memoize o.place (o.arguments, o.opened) := by
  rintro ⟨m, u⟩ hr ⟨_, name, w, _, he⟩
  obtain ⟨hargs, ho⟩ := o.extends_opened hc
  obtain ⟨_, hu⟩ := hr.extends hargs (ho.proper hc.proper)
  obtain ⟨hplace, _, _, f, hf, _⟩ := o.frame_anonymous hc hk
  generalize hi : o.place = i at he
  -- A copy lies after all records there are, and the records of definitions before the new one.
  cases he with
  | copy =>
    have hlt := Nat.lt_of_lt_of_le (lt_of_frame? hf) hu.size
    rw [hi] at hlt
    exact Nat.lt_irrefl _ hlt
  | own _ hfun =>
    obtain ⟨e, he, _, heq⟩ := Registry.mem_of_get? hfun
    rw [show (u.pushScope .defined).functions = s.functions from hu.functions.trans ho.functions] at he
    have hlt := hc.proper.place e he
    rw [heq, ← hi, hplace] at hlt
    exact Nat.lt_irrefl _ hlt

lemma look_anonymous (hk : n.kind = .callAnonymous)
    (hr : Reaches memoize (o.arguments, o.opened) (m, u)) (hl : Level o.opened u) (x : Value) : u.look x = none := by
  obtain ⟨_, hcalls, hscopes, f, hf, hb⟩ := o.frame_anonymous hc hk
  obtain hlt | ⟨_, hret, _⟩ := ((o.quiet_anonymous hc hk).path hr).retained (o.extends_opened hc).1 (lt_of_frame? hf)
  · rw [hl.1] at hlt
    exact (Nat.lt_irrefl _ hlt).elim
  · obtain ⟨g, hg, hfg⟩ := hret.2 f hf
    rw [Store.look_anonymous (by rw [hl.2, hscopes]; rfl) (by rw [hl.1, hcalls]; rfl) hg, hfg.bindings, hb]
    rfl

end

/-- No call takes the record of the call or that of its caller while the arguments are evaluated. -/
def Undisturbed (m : Node) (u : Store) : Prop :=
  Path memoize (fun c => Quiet memoize o.place c ∧ ∀ j, s.calls.head? = some j → Quiet memoize j c)
    (o.arguments, o.opened) (m, u)

lemma look_defined (hc : Regular (n, s)) (hk : n.kind = .callDefined) (h : o.Undisturbed m u)
    (hl : Level o.opened u) : ∃ name f g names e, n.callee? = some name ∧ s.template name = some f ∧
      Declared names e o.function ∧ u.frame? o.place = some g ∧ names <+: g.parameters ∧ ∀ x, u.look x =
        (Frame.binding? { g with bindings := f.bindings } (s.topBinding x) x).or (s.globals.get? ⟨x⟩) := by
  obtain ⟨hk', _⟩ | ⟨_, name, ho⟩ := o.opens
  · rw [hk] at hk'
    cases hk'
  obtain ⟨hargs, hext⟩ := o.extends_opened hc
  obtain ⟨hcalls, hscopes⟩ := calls_openDefined settles_level ho
  obtain ⟨names, e, hd⟩ := (function_openDefined hc.proper ho).declared
  obtain ⟨f, hf, hopened⟩ := frame_openDefined ho hd
  -- Both records are kept from the opening of the call on; before it only the bindings of the caller's are.
  have hkeep : ∀ {i f}, (∀ c, Quiet memoize o.place c ∧ (∀ j, s.calls.head? = some j → Quiet memoize j c) →
      Quiet memoize i c) → o.opened.frame? i = some f → ∃ g, u.frame? i = some g ∧ f.Retains False g := by
    intro i f hi hf
    obtain hlt | ⟨_, hret, _⟩ := (h.mono hi).retained hargs (lt_of_frame? hf)
    · rw [hl.1] at hlt
      exact (Nat.lt_irrefl _ hlt).elim
    · exact hret.2 f hf
  obtain ⟨g, hg, hfg⟩ := hkeep (fun _ h => h.1) hopened
  refine ⟨name, f, g, names, e, (eq_openDefined ho hd).1, hf, hd, hg, hfg.parameters, fun x => ?_⟩
  rw [Store.look_defined (by rw [hl.2, hscopes]; rfl) (by rw [hl.1, hcalls]; rfl) hg,
    (o.extends_use hc h.reaches).globals]
  have hcaller : u.callerBinding g x = s.topBinding x := by
    rw [Store.callerBinding, Store.topBinding, hfg.caller]
    cases hj : s.calls.head? with
    | none => rfl
    | some j =>
      obtain ⟨k, hk⟩ := exists_frame (hc.aligned.live j (List.mem_of_mem_head? hj))
      obtain ⟨k', hk', hkk'⟩ := bindings_openDefined ho hd hk
      obtain ⟨k'', hk'', hret⟩ := hkeep (fun _ h => h.2 j hj) hk'
      simp [hk, hk'', hret.bindings, hkk']
  rw [hcaller, ← hfg.bindings]

end Opening

/-- A variable in the arguments of a call comes to the same before the call exactly if the same is found for it
there. In the arguments of a function without a name nothing is found. In those of a defined function it is looked
for in what the record of the function was left with by the last call, in the record of the caller and among the
global variables. -/
theorem argument_value {memoize : Bool} {p n args m c : Node} {s x u : Store} (hp : Tree .statements p)
    (hr : Reaches memoize (p, {}) (n, s)) (hn : n.IsCall) (hargs : n.children[1]? = some args)
    (he : Enters memoize (n, s) (args, x)) (hu : Inside memoize (args, x) (m, u)) (hm : m.Has .reference [c]) :
    ((∀ r, (∃ t, Settles memoize m u r t) ↔ ∃ t, Settles memoize m s r t) ↔ u.look c.value = s.look c.value) ∧
    ∃ (n' : Node) (s' : Store) (o : Opening memoize n' s'),
      ((n', s') = (n, s) ∨ Inside memoize (args, x) (n', s')) ∧
      Reaches memoize (o.arguments, o.opened) (m, u) ∧ Level o.opened u ∧
      (n'.kind = .callAnonymous → u.look c.value = none) ∧
      (n'.kind = .callDefined → o.Undisturbed m u → ∃ name f g names e, n'.callee? = some name ∧
        s'.template name = some f ∧ Declared names e o.function ∧ u.frame? o.place = some g ∧
        names <+: g.parameters ∧ u.look c.value =
          (Frame.binding? { g with bindings := f.bindings } (s'.topBinding c.value) c.value).or
            (s.globals.get? ⟨c.value⟩)) := by
  have hreg := hr.regular (regular_program hp)
  have hureg : Regular (m, u) := hu.reaches.regular (he.regular hreg)
  have hsame : (∀ r, (∃ t, Settles memoize m u r t) ↔ ∃ t, Settles memoize m s r t) ↔
      u.look c.value = s.look c.value := by
    simp only [settles_reference hureg.aligned hm, settles_reference hreg.aligned hm, exists_and_left, exists_eq,
      and_true]
    rw [← @resolve_inj c.value]
    exact ⟨fun h => (h _).mp rfl, fun h r => by rw [h]⟩
  refine ⟨hsame, ?_⟩
  obtain hfunction | ⟨o, rfl, rfl⟩ | hbody := he.of_call hreg.tree hreg.proper hn
  · exact ((hu.header (.inl hfunction)).kind_ne.1 hm.1).elim
  · obtain hheader | ⟨n', s', o', ho', hr', hl⟩ := hu.innermost o hreg
    · exact (hheader.kind_ne.1 hm.1).elim
    have hreg' : Regular (n', s') ∧ s'.globals = s.globals := by
      obtain heq | hin := ho'
      · cases heq
        exact ⟨hreg, rfl⟩
      · exact ⟨hin.reaches.regular (he.regular hreg), (o.extends_use hreg hin.reaches).globals⟩
    obtain ⟨hreg', hglobals⟩ := hreg'
    refine ⟨n', s', o', ho', hr', hl, fun hk => o'.look_anonymous hreg' hk hr' hl c.value, fun hk hund => ?_⟩
    obtain ⟨name, f, g, names, e, hname, hf, hd, hg, hnames, hlook⟩ := o'.look_defined hreg' hk hund hl
    refine ⟨name, f, g, names, e, hname, hf, hd, hg, hnames, ?_⟩
    rw [hlook, hglobals]
  · cases (hreg.tree.inner_of_call hn).call_arguments hn hargs with
    | noArguments | arguments => cases hbody

def passGlobal (ns : List Node) (n : Node) : Node :=
  .program (.define "y" (.number 1)) (ns ++ [.branch .printNumber [n]])

def globalDefined : Store :=
  { globals := Registry.insert {} ⟨.text "y"⟩ (.int 1) }

lemma tree_passGlobal {ns : List Node} {n : Node} (hns : ∀ m ∈ ns, Tree .statement m) (hn : Tree .expression n) :
    Tree .statements (passGlobal ns n) := by
  refine .program_of ?_
  simp only [List.forall_mem_cons, List.forall_mem_append]
  exact ⟨.variableDefinition (.reference_of "y") .number (by decide), hns, .printNumber hn, by simp⟩

lemma settles_globalDefined : Settles true (.define "y" (.number 1)) {} (.ok .nothing) globalDefined :=
  .of_runs (.next (.literal (.inl rfl)) (.done _ _))

lemma tree_variable (y : String) : ∀ e ∈ [Node.reference y], Tree .expression e := by
  simpa using .ofReference (.reference_of y)

def definedCall : Node :=
  .call "f" [.reference "y"]

theorem argument_value_global : ∃ (args : Node) (s x : Store),
    Reaches true (passGlobal [.defineFunction "f" ["x"] (.reference "x")] definedCall, {}) (definedCall, s) ∧
    definedCall.children[1]? = some args ∧ Enters true (definedCall, s) (args, x) ∧
    Inside true (args, x) (.reference "y", x) ∧ s.look (.text "y") = some (.int 1) ∧
    ∀ r, (∃ t, Settles true (.reference "y") x r t) ↔ ∃ t, Settles true (.reference "y") s r t := by
  let s := globalDefined.defineFunction "f" ["x"] (.reference "x")
  let o : Opening true definedCall s := ⟨0, _, _, s.openOwn 0 [.text "x"], rfl,
    .inr ⟨rfl, .text "f", runs_openOwn ["x"] rfl rfl rfl rfl _⟩⟩
  have hp : Tree .statements (passGlobal [.defineFunction "f" ["x"] (.reference "x")] definedCall) := by
    refine tree_passGlobal ?_ (.call_of "f" (tree_variable "y"))
    simpa using .functionDefinition (.functionName .identifier) (.function_of ["x"] (.ofReference (.reference_of "x")))
  have hr : Reaches true (passGlobal [.defineFunction "f" ["x"] (.reference "x")] definedCall, {}) (definedCall, s) :=
    .head (enters_rest (n := passGlobal _ _) ⟨rfl, rfl⟩ settles_globalDefined)
      (.head (enters_rest ⟨rfl, rfl⟩ settles_defineFunction) (.single .here))
  have hu : Inside true (o.arguments, o.opened) (.reference "y", o.opened) := .single ⟨.here, by decide⟩
  exact ⟨_, s, _, hr, rfl, o.enters, hu, rfl,
    (argument_value (c := .identifier "y") hp hr (.inr rfl) rfl o.enters hu ⟨rfl, rfl⟩).1.mpr rfl⟩

def anonymousCall : Node :=
  .branch .callAnonymous [.function ["x"] (.reference "x"), .arguments [.reference "y"]]

theorem argument_lost : Tree .statements (passGlobal [] anonymousCall) ∧ ∃ (args : Node) (s x : Store),
    Reaches true (passGlobal [] anonymousCall, {}) (anonymousCall, s) ∧ anonymousCall.children[1]? = some args ∧
    Enters true (anonymousCall, s) (args, x) ∧ Inside true (args, x) (.reference "y", x) ∧
    Settles true (.reference "y") s (.ok (.int 1)) s ∧
    Settles true (.reference "y") x (.error (.missingKey "'y'")) x := by
  have hp : Tree .statements (passGlobal [] anonymousCall) :=
    tree_passGlobal (by simp) (.callAnonymous (.function_of ["x"] (.ofReference (.reference_of "x")))
      (.arguments_of (tree_variable "y")))
  have hr : Reaches true (passGlobal [] anonymousCall, {}) (anonymousCall, globalDefined) :=
    .head (enters_rest (n := passGlobal [] _) ⟨rfl, rfl⟩ settles_globalDefined) (.single .here)
  have he : Enters true (anonymousCall, globalDefined) (.arguments [.reference "y"],
      (globalDefined.openAnonymous (.function ["x"] (.reference "x"))).addParameters 0 [.text "x"]) :=
    .later trivial ((declared_function ["x"] (.reference "x")).settles rfl) .here
  have hs := hr.regular (regular_program hp)
  have hx := he.regular hs
  refine ⟨hp, _, _, _, hr, rfl, he, .single ⟨.here, by decide⟩, ?_, ?_⟩
  · exact (settles_reference (c := .identifier "y") hs.aligned ⟨rfl, rfl⟩).mpr ⟨rfl, rfl⟩
  · exact (settles_reference (c := .identifier "y") hx.aligned ⟨rfl, rfl⟩).mpr ⟨rfl, rfl⟩

end LispKit.Lisp
