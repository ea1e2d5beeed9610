import LispKit.Proofs.Lisp.Trace
import LispKit.Proofs.Lisp.Tree
import Mathlib.Algebra.Group.Int.Defs
import Mathlib.Data.List.Forall2

/-! Functions of one integer that call themselves: with the table of known results they are computed as by
call by value. -/

namespace LispKit.Lisp

open List Registry Eval Store

inductive Applies (f : String) (y : Node) : Node → Prop
  | mk {n g c args a r} : n.Has .callDefined [g, args] → g.Has .functionName [c] → c.value = .text f →
      args.Has .arguments [a, r] → a.Has .argument [y] → r.Has .null [] → Applies f y n

inductive Term where
  | int (m : Int)
  | bool (b : Bool)
  | parameter
  | binary (b : Binary) (x y : Term)
  | negation (x : Term)
  | conditional (x y z : Term)
  | call (x : Term)

namespace Term

/-- Call by value: what a term comes to for a value of the parameter, when the function has the given body.
Only integers are passed on. -/
inductive Denotes (body : Term) : Int → Term → Value → Prop
  | int {a m} : Denotes body a (.int m) (.int m)
  | bool {a b} : Denotes body a (.bool b) (.bool b)
  | parameter {a} : Denotes body a .parameter (.int a)
  | binary {a b x y u w v} : Denotes body a x u → Denotes body a y w → u.sameType w = true →
      b.combine u w = .ok v → Denotes body a (.binary b x y) v
  | negation {a x b} : Denotes body a x (.bool b) → Denotes body a (.negation x) (.bool !b)
  | conditional {a x y z b v} : Denotes body a x (.bool b) → Denotes body a (if b then y else z) v →
      Denotes body a (.conditional x y z) v
  | call {a x m v} : Denotes body a x (.int m) → Denotes body m body v → Denotes body a (.call x) v

lemma Denotes.unique {body x : Term} {a : Int} {v w : Value} (h : Denotes body a x v)
    (h' : Denotes body a x w) : v = w := by
  induction h generalizing w with
  | int | bool | parameter =>
    cases h'
    rfl
  | binary _ _ _ hv ihx ihy =>
    cases h' with
    | binary hx hy _ hw =>
      rw [← ihx hx, ← ihy hy, hv] at hw
      exact Except.ok.inj hw
  | negation _ ih =>
    cases h' with
    | negation hx => rw [Value.bool.inj (ih hx)]
  | conditional _ _ ihx ihy =>
    cases h' with
    | conditional hx hy =>
      obtain rfl := Value.bool.inj (ihx hx)
      exact ihy hy
  | call _ _ ihx ihb =>
    cases h' with
    | call hx hb =>
      obtain rfl := Value.int.inj (ihx hx)
      exact ihb hb

def eval (body : Term) : Nat → Int → Term → Option Value
  | 0, _, _ => none
  | _ + 1, _, .int m => some (.int m)
  | _ + 1, _, .bool b => some (.bool b)
  | _ + 1, a, .parameter => some (.int a)
  | d + 1, a, .binary b x y =>
    match eval body d a x, eval body d a y with
    | some u, some w => if u.sameType w then (b.combine u w).toOption else none
    | _, _ => none
  | d + 1, a, .negation x =>
    match eval body d a x with
    | some (.bool b) => some (.bool !b)
    | _ => none
  | d + 1, a, .conditional x y z =>
    match eval body d a x with
    | some (.bool b) => eval body d a (if b then y else z)
    | _ => none
  | d + 1, a, .call x =>
    match eval body d a x with
    | some (.int m) => eval body d m body
    | _ => none

lemma Denotes.of_eval {body x : Term} {d : Nat} {a : Int} {v : Value} (h : eval body d a x = some v) :
    Denotes body a x v := by
  induction d generalizing a x v with
  | zero => cases h
  | succ d ih =>
    cases x with
    | int | bool | parameter =>
      cases h
      constructor
    | binary b x y =>
      rw [eval] at h
      split at h
      · rename_i u w hu hw
        split at h
        · rename_i htype
          refine .binary (ih hu) (ih hw) htype ?_
          cases hc : b.combine u w <;> simp_all [Except.toOption]
        · cases h
      · cases h
    | negation x =>
      rw [eval] at h
      split at h
      · rename_i hb
        cases h
        exact .negation (ih hb)
      · cases h
    | conditional x y z =>
      rw [eval] at h
      split at h
      · rename_i hb
        exact .conditional (ih hb) (ih h)
      · cases h
    | call x =>
      rw [eval] at h
      split at h
      · rename_i hm
        exact .call (ih hm) (ih h)
      · cases h

inductive Written (f x : String) : Option Binary → Term → Node → Prop
  | int {o n m} : n.Has .number [] → n.value = .int m → Written f x o (.int m) n
  | bool {o n b} : n.Has .bool [] → n.value = .bool b → Written f x o (.bool b) n
  | parameter {o n c} : n.Has .reference [c] → c.value = .text x → Written f x o .parameter n
  | binary {o n b y z e e'} : n.Has (.binary b) [y, z] → Written f x none e y → Written f x (some b) e' z →
      Written f x o (.binary b e e') n
  | operands {n b y z e e'} : n.Has .operands [y, z] → Written f x none e y → Written f x (some b) e' z →
      Written f x (some b) (.binary b e e') n
  | negation {o n y e} : n.Has .negation [y] → Written f x none e y → Written f x o (.negation e) n
  | conditional {o n y y' z z' w w' e e' e''} : n.Has .conditional [y, z, w] →
      y.Has .test [y'] → z.Has .consequence [z'] → w.Has .alternative [w'] → Written f x none e y' →
      Written f x none e' z' → Written f x none e'' w' → Written f x o (.conditional e e' e'') n
  | call {o n y e} : Applies f y n → Written f x none e y → Written f x o (.call e) n

end Term

structure Active (f x : String) (fn : Node) (i : Nat) (a : Int) (s : Store) : Prop where
  head : s.calls.head? = some i
  scope : s.scopes.head? = some .defined
  frame : ∃ g, s.frame? i = some g ∧ g.name = .text f ∧ g.parameters = [.text x] ∧
    g.function = some fn ∧ g.bindings.get? ⟨.text x⟩ = some (.int a)

def Known (f : String) (body : Term) (s : Store) : Prop :=
  ∀ e ∈ s.memo.entries, ∃ a, e.1 = ⟨.text f, [.int a]⟩ ∧ body.Denotes a body e.2

structure Same (s t : Store) : Prop where
  operators : t.operators = s.operators
  scopes : t.scopes = s.scopes
  calls : t.calls = s.calls
  functions : t.functions = s.functions
  out : t.out = s.out

structure Grows (s t : Store) : Prop extends Same s t where
  frame : ∀ i g, s.frame? i = some g → t.frame? i = some g

lemma Grows.refl (s : Store) : Grows s s :=
  ⟨⟨rfl, rfl, rfl, rfl, rfl⟩, fun _ _ h => h⟩

lemma Same.trans {s t u : Store} (h : Same s t) (h' : Same t u) : Same s u :=
  ⟨h'.operators.trans h.operators, h'.scopes.trans h.scopes, h'.calls.trans h.calls,
    h'.functions.trans h.functions, h'.out.trans h.out⟩

lemma Grows.trans {s t u : Store} (h : Grows s t) (h' : Grows t u) : Grows s u :=
  ⟨h.toSame.trans h'.toSame, fun i g hg => h'.frame i g (h.frame i g hg)⟩

lemma Grows.pop {s t : Store} {o : Operator} (h : Grows (s.pushOperator o) t) :
    Grows s { t with operators := s.operators } :=
  ⟨⟨rfl, h.scopes, h.calls, h.functions, h.out⟩, h.frame⟩

section

variable {f x : String} {fn nb n : Node} {body e : Term} {i j : Nat} {a m : Int} {v : Value} {s t u : Store}

lemma Active.grows (h : Active f x fn i a s) (ht : Grows s t) : Active f x fn i a t := by
  obtain ⟨g, hg, hf⟩ := h.frame
  exact ⟨by rw [ht.calls, h.head], by rw [ht.scopes, h.scope], g, ht.frame i g hg, hf⟩

lemma Active.operators (h : Active f x fn i a s) (os : List Operator) :
    Active f x fn i a { s with operators := os } :=
  ⟨h.head, h.scope, h.frame⟩

lemma Entered.same {name : Value} (h : Entered (s.pushScope .defined) name i u) :
    Same { s with scopes := .defined :: s.scopes, calls := i :: s.calls } u ∧ u.memo = s.memo ∧
      ∀ j g, j ≠ i → s.frame? j = some g → u.frame? j = some g := by
  cases h with
  | copy hc =>
    refine ⟨⟨rfl, rfl, rfl, rfl, rfl⟩, rfl, fun j g _ hg => ?_⟩
    have hj := lt_of_frame? hg
    simp only [Store.frame?, Store.pushScope] at hg ⊢
    rw [Array.getElem?_push_lt hj, ← hg, Array.getElem?_eq_getElem hj]
  | own hc hf =>
    refine ⟨⟨rfl, rfl, rfl, rfl, rfl⟩, rfl, fun j g hj hg => ?_⟩
    simp only [Store.frame?, Store.pushScope] at hg ⊢
    rw [Array.getElem?_modify, if_neg (fun h => hj h.symm), hg]

lemma Known.congr (h : Known f body s) (ht : t.memo = s.memo) : Known f body t := by
  rw [Known, ht]
  exact h

lemma Known.eq_of_get? (h : Known f body s) (hm : s.memo.get? ⟨.text f, [.int m]⟩ = some v)
    {w : Value} (hw : body.Denotes m body w) : v = w := by
  obtain ⟨e, he, hk, rfl⟩ := mem_of_get? hm
  obtain ⟨a, ha, hd⟩ := h e he
  rw [ha] at hk
  have : a = m := by simpa [BEq.beq, sameAll, Value.same, Value.number?] using hk
  subst this
  exact hd.unique hw

lemma Known.insert (h : Known f body s) (hv : body.Denotes m body v) :
    Known f body { s with memo := s.memo.insert ⟨.text f, [.int m]⟩ v } := by
  intro e he
  obtain he | ⟨rfl, hk | ⟨hk, hold⟩⟩ := mem_insert he
  · exact h e he
  · exact ⟨m, hk, hv⟩
  · obtain ⟨e', he', heq⟩ := mem_map.mp hold
    obtain ⟨a, ha, _⟩ := h e' he'
    rw [← heq, ha] at hk
    have : a = m := by simpa [BEq.beq, sameAll, Value.same, Value.number?] using hk
    subst this
    exact ⟨a, by rw [← heq, ha], hv⟩

lemma settles_arguments {args a r y : Node} (hargs : args.Has .arguments [a, r]) (ha : a.Has .argument [y])
    (hr : r.Has .null []) (hy : Settles true y s (.ok v) t) (hi : s.calls.head? = some i) :
    Settles true args s (.ok .nothing) (t.addArgument i v) := by
  refine .of_runs ?_
  rw [Eval.step, hargs.1]
  refine (runs_arguments (by rw [hargs.2]; rfl) (by rw [hargs.2]; rfl) ha.1).mpr
    ⟨rfl, i, y, v, t, hi, by rw [ha.2]; rfl, hy, ?_⟩
  rw [hr.1, if_neg (by decide)]

/-- The store in which the body of the call is evaluated. -/
abbrev Store.passed (t : Store) (i : Nat) (m : Int) : Store :=
  (t.addArgument i (.int m)).modifyFrame i Frame.bound

section

variable {y : Node} {g : Frame} {w : Store}

variable (hn : Applies f y n) (hfn : Declared [.text x] nb fn)
  (he : Entered (s.pushScope .defined) (.text f) i u) (hg : u.frame? i = some g)
  (hname : g.name = .text f) (hps : g.parameters = []) (hargs : g.arguments = [])
  (hfun : g.function = some fn)
  (harg : Settles true y (u.addParameters i [.text x]) (.ok (.int m)) t)
  (ht : Grows (u.addParameters i [.text x]) t)

include hps hg hargs ht in
lemma frame_addArgument : (t.addArgument i (.int m)).frame? i =
    some { g with parameters := [.text x], arguments := [.int m] } := by
  have hu : (u.addParameters i [.text x]).frame? i = some { g with parameters := [.text x] } := by
    rw [Store.addParameters, frame?_modifyFrame, if_pos rfl, hg, Option.map_some, hps]
    rfl
  rw [Store.addArgument, frame?_modifyFrame, if_pos rfl, ht.frame i _ hu, Option.map_some, hargs]
  rfl

include hps hg hargs ht in
lemma frame_bound : (t.passed i m).frame? i =
    some { g with
      parameters := [.text x], arguments := [.int m], bindings := g.bindings.insert ⟨.text x⟩ (.int m) } := by
  rw [frame?_modifyFrame, if_pos rfl, frame_addArgument hg hps hargs ht]
  rfl

include hn hfn he hg hps hargs hfun harg ht in
lemma runs_prepare_applies : ∃ b, b.Has .body [nb] ∧
    (Eval.prepare n s).Runs (Settles true) (.ok (.text f, i, b)) (t.passed i m) := by
  obtain ⟨hsame, _⟩ := he.same
  have hi : u.calls.head? = some i := by rw [hsame.calls]; rfl
  have hfn' : Settles true fn u (.ok .nothing) (u.addParameters i [.text x]) := hfn.settles hi
  obtain ⟨hchildren, _, _, hb⟩ := hfn
  obtain ⟨hn, hcallee, hc, hlist, ha, hr⟩ := hn
  have hopen : (Eval.openDefined n s).Runs (Settles true) (.ok (.text f, i, fn)) (u.addParameters i [.text x]) :=
    runs_openDefined.mpr ⟨by simp [Node.callee?, hn.2, hcallee.2, hc], u, g, .nothing, he, hg, hfun, hfn'⟩
  exact ⟨_, hb, runs_prepare.mpr ⟨fn, _, hopen, runs_passArguments.mpr
    ⟨by rw [hchildren.2]; rfl, _, _, _, by rw [hn.2]; rfl, settles_arguments hlist ha hr harg hi, _,
      frame_addArgument hg hps hargs ht, Nat.le_refl _, rfl⟩⟩⟩

include he ht in
lemma same_bound : Same { s with scopes := .defined :: s.scopes, calls := i :: s.calls } (t.passed i m) := by
  have hu : Same { s with scopes := .defined :: s.scopes, calls := i :: s.calls }
      (u.addParameters i [.text x]) := he.same.1.trans ⟨rfl, rfl, rfl, rfl, rfl⟩
  exact (hu.trans ht.toSame).trans ⟨rfl, rfl, rfl, rfl, rfl⟩

include hps hg hargs hname hfun he ht in
lemma active_bound : Active f x fn i m (t.passed i m) := by
  have hsame := same_bound (m := m) he ht
  exact ⟨by rw [hsame.calls]; rfl, by rw [hsame.scopes]; rfl, _, frame_bound hg hps hargs ht, hname, rfl, hfun,
    get?_insert_self _ _ _⟩

include he ht in
lemma frame_of_ne {h : Frame} (hj : j ≠ i) (hs : s.frame? j = some h) :
    (t.passed i m).frame? j = some h := by
  have hu : (u.addParameters i [.text x]).frame? j = some h := by
    rw [Store.addParameters, frame?_modifyFrame, if_neg hj.symm]
    exact he.same.2.2 j h hj hs
  rw [frame?_modifyFrame, if_neg hj.symm, Store.addArgument, frame?_modifyFrame, if_neg hj.symm]
  exact ht.frame j h hu

end

lemma runs_answer_known {b : Node} {g : Frame} {w : Store} (hb : b.Has .body [nb]) (hg : w.frame? i = some g)
    (hargs : g.arguments = [.int m]) (hk : Known f body w) (hv : body.Denotes m body v)
    (hbody : ∃ z, Settles true nb w (.ok v) z ∧ Grows w z ∧ Known f body z) :
    ∃ z, (Eval.answer true (.text f) i b w).Runs (Settles true) (.ok v) z ∧ Grows w z ∧ Known f body z := by
  cases hm : w.memo.get? ⟨.text f, [.int m]⟩ with
  | some r =>
    refine ⟨w, (runs_answer hg).mpr (.inl ⟨?_, rfl⟩), .refl w, hk⟩
    rw [if_pos rfl, hargs, hm, hk.eq_of_get? hm hv]
  | none =>
    obtain ⟨z, hz, hgrows, hknown⟩ := hbody
    refine ⟨{ z with memo := z.memo.insert ⟨.text f, [.int m]⟩ v },
      (runs_answer hg).mpr (.inr ⟨by rw [if_pos rfl, hargs, hm], runs_compute.mpr
        ⟨z, g, .visitChild (.inr (.inr hb.1)) (by rw [hb.2]; rfl) hz, hgrows.frame i g hg, by rw [hargs]⟩⟩),
      ⟨⟨hgrows.operators, hgrows.scopes, hgrows.calls, hgrows.functions, hgrows.out⟩, hgrows.frame⟩,
      hknown.insert hv⟩

lemma settles_applies {y : Node} {g : Frame} (hn : Applies f y n) (hfn : Declared [.text x] nb fn)
    (he : Entered (s.pushScope .defined) (.text f) i u) (hg : u.frame? i = some g)
    (hname : g.name = .text f) (hps : g.parameters = []) (hargs : g.arguments = []) (hfun : g.function = some fn)
    (harg : Settles true y (u.addParameters i [.text x]) (.ok (.int m)) t)
    (ht : Grows (u.addParameters i [.text x]) t) (hk : Known f body t) (hv : body.Denotes m body v)
    (hbody : ∀ w, Active f x fn i m w → Known f body w →
      ∃ w', Settles true nb w (.ok v) w' ∧ Grows w w' ∧ Known f body w') :
    ∃ w, Settles true n s (.ok v) w ∧ Same s w ∧ Known f body w ∧
      (∀ j g, j ≠ i → s.frame? j = some g → w.frame? j = some g) ∧
      ∃ g', w.frame? i = some g' ∧ g'.name = .text f ∧ g'.function = some fn := by
  obtain ⟨b, hb, hprepare⟩ := runs_prepare_applies hn hfn he hg hps hargs hfun harg ht
  have hknown : Known f body (t.passed i m) := hk
  have hactive : Active f x fn i m _ := active_bound he hg hname hps hargs hfun ht
  have hframe := frame_bound (m := m) hg hps hargs ht
  have hrest := fun j h (hj : j ≠ i) => frame_of_ne (m := m) (h := h) he ht hj
  have hsame := same_bound (m := m) he ht
  generalize t.passed i m = w at *
  obtain ⟨z, hz, hgrows, hkz⟩ := runs_answer_known hb hframe rfl hknown hv (hbody w hactive hknown)
  have hcalls : z.calls = i :: s.calls := hgrows.calls.trans hsame.calls
  have hscopes : z.scopes = .defined :: s.scopes := hgrows.scopes.trans hsame.scopes
  have hcall : Settles true n s (.ok v) { z with calls := s.calls, scopes := s.scopes } := by
    obtain ⟨hn, _⟩ := hn
    refine .of_runs ?_
    rw [step_callDefined hn.1]
    exact runs_callDefined.mpr ⟨_, _, _, w, z, hprepare, hz,
      runs_leaveWith.mpr ⟨rfl, i, s.calls, .defined, s.scopes, hcalls, hscopes, rfl⟩⟩
  refine ⟨_, hcall, ⟨?_, rfl, rfl, ?_, ?_⟩, hkz, fun j h hj hs => ?_, _, hgrows.frame i _ hframe, hname, hfun⟩
  · exact hgrows.operators.trans hsame.operators
  · exact hgrows.functions.trans hsame.functions
  · exact hgrows.out.trans hsame.out
  · exact hgrows.frame j h (hrest j h hj hs)

lemma settles_parameter {c : Node} (h : Active f x fn i a s) (hn : n.Has .reference [c])
    (hc : c.value = .text x) : Settles true n s (.ok (.int a)) s := by
  obtain ⟨g, hg, _, hps, _, hb⟩ := h.frame
  refine .of_runs ?_
  rw [Eval.step, hn.1]
  refine runs_reference.mpr ⟨c, by rw [hn.2]; rfl, ?_⟩
  rw [h.scope, hc]
  change (Eval.definedBinding _ _).Runs _ _ _
  rw [definedBinding_apply h.head hg]
  simp [Frame.binding?, hps, hb]

lemma Active.entered (h : Active f x fn i a s) :
    ∃ u g, Entered (s.pushScope .defined) (.text f) s.frames.size u ∧ u.frame? s.frames.size = some g ∧
      g.name = .text f ∧ g.parameters = [] ∧ g.arguments = [] ∧ g.function = some fn ∧
      Active f x fn s.frames.size a (u.addParameters s.frames.size [.text x]) := by
  obtain ⟨g, hg, hname, _, hfun, hb⟩ := h.frame
  obtain ⟨is, hcalls⟩ := head?_eq_some_iff.mp h.head
  have hcurrent : (s.pushScope .defined).current? (.text f) = some (i, g) := by
    have hg' : (s.pushScope .defined).frame? i = some g := hg
    simp only [Store.current?, Store.pushScope, hcalls] at hg' ⊢
    simp [hg', hname, Value.same_refl]
  have he : Entered (s.pushScope .defined) (.text f) s.frames.size _ := .copy hcurrent
  have hframe : (s.frames.push { g with parameters := [], arguments := [], caller := some i })[s.frames.size]? =
    some { g with parameters := [], arguments := [], caller := some i } := Array.getElem?_push_size
  refine ⟨_, _, he, hframe, hname, rfl, rfl, hfun, rfl, rfl,
    { g with parameters := [.text x], arguments := [], caller := some i }, ?_, hname, rfl, hfun, hb⟩
  rw [Store.addParameters, frame?_modifyFrame, if_pos rfl]
  simp only [Store.frame?, Store.pushScope, hframe, Option.map_some]
  rfl

lemma Term.Denotes.settles (hfn : Declared [.text x] nb fn) (hbody : Term.Written f x none body nb)
    (h : body.Denotes a e v) {o : Option Binary} (hn : Term.Written f x o e n)
    (ho : ∀ b, o = some b → s.operators.head? = some (.binary b)) (hs : Active f x fn i a s)
    (hk : Known f body s) : ∃ t, Settles true n s (.ok v) t ∧ Grows s t ∧ Known f body t := by
  -- By the derivation of the value: each call of the function in it has a derivation for its body.
  induction h generalizing n s i o with
  | int =>
    cases hn with
    | int hn hv =>
      rw [← hv]
      exact ⟨s, .literal (.inl hn.1), .refl s, hk⟩
  | bool =>
    cases hn with
    | bool hn hv =>
      rw [← hv]
      exact ⟨s, .literal (.inr hn.1), .refl s, hk⟩
  | parameter =>
    cases hn with
    | parameter hn hc => exact ⟨s, settles_parameter hs hn hc, .refl s, hk⟩
  | @binary a b y z u w v _ _ htype hv ihy ihz =>
    cases hn with
    | binary hn hy hz =>
      have hs' := hs.operators (.binary b :: s.operators)
      obtain ⟨t, ht, hst, hkt⟩ := ihy hy (by simp) hs' hk
      obtain ⟨t', ht', htt', hkt'⟩ := ihz hz (by simp [hst.operators]) (hs'.grows hst) hkt
      refine ⟨_, .of_runs ?_, (hst.trans htt').pop, hkt'⟩
      rw [Eval.step, hn.1]
      exact runs_binary.mpr ⟨_, u, t, _, w, t', _, s.operators, by rw [hn.2]; rfl, ht, by rw [hn.2]; rfl, ht',
        htype, hv, htt'.operators.trans hst.operators, rfl⟩
    | operands hn hy hz =>
      have hb := ho b rfl
      obtain ⟨t, ht, hst, hkt⟩ := ihy hy (by simp) hs hk
      obtain ⟨t', ht', htt', hkt'⟩ := ihz hz (by simp [hst.operators, hb]) (hs.grows hst) hkt
      refine ⟨t', .of_runs ?_, hst.trans htt', hkt'⟩
      rw [Eval.step, hn.1]
      exact runs_operands_of (by rw [hn.2]; rfl) ht (by rw [hst.operators, hb]) (by rw [hn.2]; rfl) ht'
        (by rw [htt'.operators, hst.operators, hb]) htype hv
  | negation _ ih =>
    cases hn with
    | negation hn hy =>
      obtain ⟨t, ht, hst, hkt⟩ := ih hy (by simp) (hs.operators (.not :: s.operators)) hk
      refine ⟨_, .of_runs ?_, hst.pop, hkt⟩
      rw [Eval.step, hn.1]
      exact runs_negation.mpr ⟨_, _, t, _, s.operators, by rw [hn.2]; rfl, ht, rfl, hst.operators, rfl⟩
  | @conditional a e₁ e₂ e₃ b v _ _ ihx ihy =>
    cases hn with
    | conditional hn hy hz hw hy' hz' hw' =>
      obtain ⟨t, ht, hst, hkt⟩ := ihx hy' (by simp) hs hk
      have htest : Settles true _ s (.ok (.bool b)) t := .of_runs (by
        rw [Eval.step, hy.1]
        exact runs_test.mpr ⟨_, b, by rw [hy.2]; rfl, ht, rfl⟩)
      suffices ∃ m, n.children[if b then 1 else 2]? = some m ∧
          ∃ t', Settles true m t (.ok v) t' ∧ Grows t t' ∧ Known f body t' by
        obtain ⟨m, hm, t', ht', htt', hkt'⟩ := this
        refine ⟨t', .of_runs ?_, hst.trans htt', hkt'⟩
        rw [Eval.step, hn.1]
        exact runs_conditional.mpr ⟨_, _, t, m, by rw [hn.2]; rfl, htest, hm, ht'⟩
      cases b with
      | true =>
        obtain ⟨t', ht', htt', hkt'⟩ := ihy hz' (by simp) (hs.grows hst) hkt
        exact ⟨_, by rw [hn.2]; rfl, t', .visitChild (.inl hz.1) (by rw [hz.2]; rfl) ht', htt', hkt'⟩
      | false =>
        obtain ⟨t', ht', htt', hkt'⟩ := ihy hw' (by simp) (hs.grows hst) hkt
        exact ⟨_, by rw [hn.2]; rfl, t', .visitChild (.inr (.inl hw.1)) (by rw [hw.2]; rfl) ht', htt', hkt'⟩
  | call _ hv ihx ihb =>
    cases hn with
    | call hn hy =>
      obtain ⟨u, g, he, hg, hname, hps, hargs, hfun, hactive⟩ := hs.entered
      obtain ⟨t, ht, hut, hkt⟩ := ihx hy (by simp) hactive (hk.congr he.same.2.1)
      obtain ⟨w, hw, hsame, hkw, hframe, _⟩ := settles_applies hn hfn he hg hname hps hargs hfun ht hut hkt hv
        fun w hw hkw => ihb hbody (by simp) hw hkw
      refine ⟨w, hw, ⟨hsame, fun j h hj => hframe j h ?_ hj⟩, hkw⟩
      exact Nat.ne_of_lt (lt_of_frame? hj)

end

inductive Defines (f x : String) (body : Term) : Node → Prop
  | mk {n g c fn nb} : n.Has .definition [g, fn] → g.Has .functionName [c] → c.value = .text f →
      Declared [.text x] nb fn → Term.Written f x none body nb → Defines f x body n

inductive Query (f : String) (c : Int) : Node → Prop
  | mk {n q y} : n.Has .printNumber [q] → Applies f y q → y.Has .number [] → y.value = .int c → Query f c n

inductive Queries (f : String) : List Int → Node → Prop
  | last {n c} : Query f c n → Queries f [c] n
  | more {n m k c cs} : n.Has .statements [m, k] → Query f c m → Queries f cs k → Queries f (c :: cs) n

inductive Script (f x : String) (body : Term) : List Int → Node → Prop
  | alone {n} : Defines f x body n → Script f x body [] n
  | followed {n m k cs} : n.Has .statements [m, k] → Defines f x body m → Queries f cs k →
      Script f x body cs n

structure Idle (f : String) (fn : Node) (i : Nat) (s : Store) : Prop where
  calls : s.calls = []
  place : s.functions.get? ⟨.text f⟩ = some i
  frame : ∃ g, s.frame? i = some g ∧ g.name = .text f ∧ g.function = some fn

def fits (m : Int) : Bool :=
  !Text.exceedsDigitLimit m

def lines : List Int → String
  | [] => ""
  | m :: ms => Text.decimal m ++ "\n" ++ lines ms

section

variable {f x : String} {fn nb n : Node} {body : Term} {i : Nat} {c r : Int} {cs rs : List Int} {s : Store}

lemma Idle.entered (h : Idle f fn i s) : ∃ u g, Entered (s.pushScope .defined) (.text f) i u ∧ u.frame? i = some g ∧
      g.name = .text f ∧ g.parameters = [] ∧ g.arguments = [] ∧ g.function = some fn := by
  obtain ⟨g, hg, hname, hfun⟩ := h.frame
  have hcurrent : (s.pushScope .defined).current? (.text f) = none := by
    simp [Store.current?, Store.pushScope, h.calls]
  refine ⟨_, { g with parameters := [], arguments := [], caller := s.calls.head? }, .own hcurrent h.place,
    ?_, hname, rfl, rfl, hfun⟩
  simp only [Store.frame?] at hg ⊢
  rw [Array.getElem?_modify, if_pos rfl]
  simp [Store.pushScope, hg]

variable (hfn : Declared [.text x] nb fn) (hbody : Term.Written f x none body nb)

include hfn hbody

lemma Idle.settles_call {q y : Node} (hs : Idle f fn i s) (hk : Known f body s) (hq : Applies f y q)
    (hy : y.Has .number []) (hc : y.value = .int c) (hr : body.Denotes c body (.int r)) :
    ∃ t, Settles true q s (.ok (.int r)) t ∧ Idle f fn i t ∧ Known f body t ∧ t.out = s.out := by
  obtain ⟨u, g, he, hg, hname, hps, hargs, hfun⟩ := hs.entered
  have harg : Settles true y (u.addParameters i [.text x]) (.ok (.int c)) (u.addParameters i [.text x]) :=
    hc ▸ .literal (.inl hy.1)
  obtain ⟨t, ht, hsame, hkt, _, hframe⟩ := settles_applies hq hfn he hg hname hps hargs hfun harg (.refl _)
    (hk.congr he.same.2.1) hr fun w hw hkw => hr.settles hfn hbody hbody (by simp) hw hkw
  exact ⟨t, ht, ⟨hsame.calls.trans hs.calls, by rw [hsame.functions, hs.place], hframe⟩, hkt, hsame.out⟩

lemma Query.settles (h : Query f c n) (hs : Idle f fn i s) (hk : Known f body s) (hr : body.Denotes c body (.int r)) :
    (fits r = true → ∃ t, Settles true n s (.ok .nothing) t ∧ Idle f fn i t ∧ Known f body t ∧
      t.out = s.out ++ (Text.decimal r ++ "\n")) ∧
    (fits r = false → ∃ t, Settles true n s (.error .longNumber) t ∧ Known f body t ∧ t.out = s.out) := by
  obtain ⟨hn, hq, hy, hc⟩ := h
  obtain ⟨t, ht, hidle, hkt, hout⟩ := hs.settles_call hfn hbody hk hq hy hc hr
  constructor
  · intro hfits
    refine ⟨_, .printNumber hn ht (by simpa [fits] using hfits), ⟨hidle.calls, hidle.place, hidle.frame⟩, hkt, ?_⟩
    simp [Store.print, hout, String.append_assoc]
  · intro hfits
    exact ⟨t, .printNumber_fail hn ht (by simpa [fits] using hfits), hkt, hout⟩

lemma Queries.settles (h : Queries f cs n)
    (hrs : List.Forall₂ (fun c r => body.Denotes c body (.int r)) cs rs) (hs : Idle f fn i s) (hk : Known f body s) :
    ∃ t, Settles true n s (if rs.all fits then .ok .nothing else .error .longNumber) t ∧ Known f body t ∧
      t.out = s.out ++ lines (rs.takeWhile fits) := by
  induction h generalizing rs s with
  | last hn =>
    obtain _ | ⟨hr, hrs⟩ := hrs
    obtain ⟨hok, herr⟩ := hn.settles hfn hbody hs hk hr
    cases hrs
    rename_i r
    cases hfits : fits r with
    | true =>
      obtain ⟨t, ht, _, hkt, hout⟩ := hok hfits
      exact ⟨t, by simpa [hfits] using ht, hkt, by simp [hout, hfits, lines]⟩
    | false =>
      obtain ⟨t, ht, hkt, hout⟩ := herr hfits
      exact ⟨t, by simpa [hfits] using ht, hkt, by simp [hout, hfits, lines]⟩
  | more hn hm _ ih =>
    obtain _ | ⟨hr, hrs⟩ := hrs
    obtain ⟨hok, herr⟩ := hm.settles hfn hbody hs hk hr
    rename_i r rs
    cases hfits : fits r with
    | true =>
      obtain ⟨t, ht, hidle, hkt, hout⟩ := hok hfits
      obtain ⟨t', ht', hkt', hout'⟩ := ih hrs hidle hkt
      refine ⟨t', ?_, hkt', by simp [hout', hout, hfits, lines, String.append_assoc]⟩
      have h := Settles.statements hn ht ht'
      rw [all_cons, hfits, Bool.true_and]
      cases hall : rs.all fits <;> rw [hall] at h <;> exact h
    | false =>
      obtain ⟨t, ht, hkt, hout⟩ := herr hfits
      exact ⟨t, by simpa [hfits] using ht.statements_fail hn, hkt, by simp [hout, hfits, lines]⟩

end

lemma Defines.settles {f x : String} {body : Term} {n : Node} (h : Defines f x body n) :
    ∃ fn nb t, Declared [.text x] nb fn ∧ Term.Written f x none body nb ∧ Settles true n {} (.ok .nothing) t ∧
      Idle f fn 0 t ∧ Known f body t ∧ t.out = "" := by
  obtain ⟨hn, hg, hc, hfn, hbody⟩ := h
  refine ⟨_, _, _, hfn, hbody, .defineFunction hn hg, ⟨rfl, ?_, _, rfl, hc, rfl⟩, fun e he => ?_, rfl⟩
  · rw [hc]
    exact get?_insert_self _ _ _
  · exact (not_mem_nil he).elim

/-- A function of one integer that calls itself is computed as by call by value, and so is every known result
at the end. Printing stops at the first result that has more digits than can be written. -/
theorem recursion_correct {f x : String} {body : Term} {cs rs : List Int} {p : Node}
    (hp : Script f x body cs p) (hrs : List.Forall₂ (fun c r => body.Denotes c body (.int r)) cs rs) :
    ∃ s, Settles true p {} (if rs.all fits then .ok .nothing else .error .longNumber) s ∧
      s.out = lines (rs.takeWhile fits) ∧
      ∀ e ∈ s.memo.entries, ∃ a, e.1 = ⟨.text f, [.int a]⟩ ∧ ∀ v, body.Denotes a body v ↔ v = e.2 := by
  suffices ∃ s, Settles true p {} (if rs.all fits then .ok .nothing else .error .longNumber) s ∧
      s.out = lines (rs.takeWhile fits) ∧ Known f body s by
    obtain ⟨s, hs, hout, hk⟩ := this
    refine ⟨s, hs, hout, fun e he => ?_⟩
    obtain ⟨a, ha, hd⟩ := hk e he
    exact ⟨a, ha, fun v => ⟨fun hv => hv.unique hd, fun hv => hv ▸ hd⟩⟩
  cases hp with
  | alone hn =>
    obtain ⟨_, _, t, _, _, ht, _, hkt, hout⟩ := hn.settles
    cases hrs
    exact ⟨t, ht, hout, hkt⟩
  | followed hn hm hk =>
    obtain ⟨fn, nb, t, hfn, hbody, ht, hidle, hkt, hout⟩ := hm.settles
    obtain ⟨t', ht', hkt', hout'⟩ := hk.settles hfn hbody hrs hidle hkt
    refine ⟨t', ?_, by rw [hout', hout, String.empty_append], hkt'⟩
    have h := Settles.statements hn ht ht'
    cases hall : rs.all fits <;> rw [hall] at h <;> exact h

def fibonacci : Term :=
  .conditional (.binary .less .parameter (.int 2)) .parameter
    (.binary .plus (.call (.binary .minus .parameter (.int 1))) (.call (.binary .minus .parameter (.int 2))))

def fibonacciProgram : Node :=
  .program (.defineFunction "f" ["x"] (.branch .conditional
      [.branch .test [.branch (.binary .less) [.reference "x", .number 2]],
        .branch .consequence [.reference "x"],
        .branch .alternative [.branch (.binary .plus)
          [.call "f" [.branch (.binary .minus) [.reference "x", .number 1]],
            .call "f" [.branch (.binary .minus) [.reference "x", .number 2]]]]]))
    [.branch .printNumber [.call "f" [.number 9]], .branch .printNumber [.call "f" [.number 6]]]

lemma applies_call (f : String) (y : Node) : Applies f y (.call f [y]) :=
  .mk ⟨rfl, rfl⟩ ⟨rfl, rfl⟩ rfl ⟨rfl, rfl⟩ ⟨rfl, rfl⟩ ⟨rfl, rfl⟩

lemma query_print (f : String) (c : Int) : Query f c (.branch .printNumber [.call f [.number c]]) :=
  .mk ⟨rfl, rfl⟩ (applies_call f _) ⟨rfl, rfl⟩ rfl

theorem recursion_correct_fibonacci : Script "f" "x" fibonacci [9, 6] fibonacciProgram ∧
    List.Forall₂ (fun c r => fibonacci.Denotes c fibonacci (.int r)) [9, 6] [34, 8] ∧
    ∃ s, Settles true fibonacciProgram {} (.ok .nothing) s ∧ s.out = "34\n8\n" ∧
      ∀ e ∈ s.memo.entries, ∃ a, e.1 = ⟨.text "f", [.int a]⟩ ∧ ∀ v, fibonacci.Denotes a fibonacci v ↔ v = e.2 := by
  have hx : ∀ o, Term.Written "f" "x" o .parameter (.reference "x") := fun _ => .parameter ⟨rfl, rfl⟩ rfl
  have hnum : ∀ o m, Term.Written "f" "x" o (.int m) (.number m) := fun _ _ => .int ⟨rfl, rfl⟩ rfl
  have hminus : ∀ m, Term.Written "f" "x" none (.binary .minus .parameter (.int m))
      (.branch (.binary .minus) [.reference "x", .number m]) :=
    fun m => .binary ⟨rfl, rfl⟩ (hx none) (hnum _ m)
  have hscript : Script "f" "x" fibonacci [9, 6] fibonacciProgram := by
    refine .followed ⟨rfl, rfl⟩ (.mk ⟨rfl, rfl⟩ ⟨rfl, rfl⟩ rfl (declared_function ["x"] _) ?_)
      (.more ⟨rfl, rfl⟩ (query_print "f" 9) (.last (query_print "f" 6)))
    refine .conditional ⟨rfl, rfl⟩ ⟨rfl, rfl⟩ ⟨rfl, rfl⟩ ⟨rfl, rfl⟩ (.binary ⟨rfl, rfl⟩ (hx none) (hnum _ 2))
      (hx none) (.binary ⟨rfl, rfl⟩ (.call (applies_call "f" _) (hminus 1)) (.call (applies_call "f" _) (hminus 2)))
  have hvalues : List.Forall₂ (fun c r => fibonacci.Denotes c fibonacci (.int r)) [9, 6] [34, 8] :=
    .cons (.of_eval (d := 50) (by decide +kernel)) (.cons (.of_eval (d := 50) (by decide +kernel)) .nil)
  obtain ⟨s, hs, hout, hk⟩ := recursion_correct hscript hvalues
  have hfits : [34, 8].all fits = true := by decide +kernel
  rw [hfits] at hs
  refine ⟨hscript, hvalues, s, hs, hout.trans (by decide +kernel), hk⟩

def squareProgram (c : Int) : Node :=
  .program (.defineFunction "f" ["x"] (.branch (.binary .times) [.reference "x", .reference "x"]))
    [.branch .printNumber [.call "f" [.number c]]]

def square : Term :=
  .binary .times .parameter .parameter

lemma script_square (c : Int) : Script "f" "x" square [c] (squareProgram c) := by
  refine .followed ⟨rfl, rfl⟩ (.mk ⟨rfl, rfl⟩ ⟨rfl, rfl⟩ rfl (declared_function ["x"] _) ?_)
    (.last (query_print "f" c))
  exact .binary ⟨rfl, rfl⟩ (.parameter ⟨rfl, rfl⟩ rfl) (.parameter ⟨rfl, rfl⟩ rfl)

lemma denotes_square (c : Int) : square.Denotes c square (.int (c * c)) :=
  .binary .parameter .parameter rfl rfl

theorem long_result_not_printed : Script "f" "x" square [10 ^ 2200] (squareProgram (10 ^ 2200)) ∧
    square.Denotes (10 ^ 2200) square (.int (10 ^ 2200 * 10 ^ 2200)) ∧
    ¬ ∃ s, Settles true (squareProgram (10 ^ 2200)) {} (.ok .nothing) s := by
  refine ⟨script_square _, denotes_square _, ?_⟩
  rintro ⟨s, hs⟩
  have hlong : fits (10 ^ 2200 * 10 ^ 2200) = false := by
    unfold fits Text.exceedsDigitLimit
    decide +kernel
  generalize (10 : Int) ^ 2200 = c at *
  obtain _ | ⟨hn, hm, hk⟩ := script_square c
  obtain ⟨fn, nb, t, hfn, hbody, ht, hidle, hkt, -⟩ := hm.settles
  obtain ⟨t', ht', -⟩ := hk.settles hfn hbody (.cons (denotes_square c) .nil) hidle hkt
  have h := Settles.statements hn ht ht'
  simp only [all_cons, hlong, Bool.false_and, Bool.false_eq_true, if_false, Except.map] at h
  cases (h.unique hs).1

end LispKit.Lisp
