import LispKit.Proofs.Lisp.Output

/-! Evaluating an expression leaves all definitions alone: variables and functions change where a statement of the
program defines them, and nowhere else. -/

namespace LispKit.Lisp

open List

structure SameDefinitions (s t : Store) : Prop where
  globals : t.globals = s.globals
  functions : t.functions = s.functions
  record : ∀ i f, s.frame? i = some f → ∃ g, t.frame? i = some g ∧ g.name = f.name ∧ g.function = f.function
  memo : s.memo.keys <+: t.memo.keys

namespace SameDefinitions

variable {s t u : Store} {i : Nat}

lemma of_frames (hglobals : t.globals = s.globals) (hfunctions : t.functions = s.functions) (hframes : t.frames = s.frames)
    (hmemo : s.memo.keys <+: t.memo.keys) : SameDefinitions s t :=
  ⟨hglobals, hfunctions, fun i f hf => ⟨f, by rwa [Store.frame?, hframes], rfl, rfl⟩, hmemo⟩

lemma refl (s : Store) : SameDefinitions s s :=
  of_frames rfl rfl rfl prefix_rfl

lemma trans (h : SameDefinitions s t) (h' : SameDefinitions t u) : SameDefinitions s u := by
  refine ⟨h'.globals.trans h.globals, h'.functions.trans h.functions, fun i f hf => ?_, h.memo.trans h'.memo⟩
  obtain ⟨g, hg, hname, hfunction⟩ := h.record i f hf
  obtain ⟨k, hk, hname', hfunction'⟩ := h'.record i g hg
  exact ⟨k, hk, hname'.trans hname, hfunction'.trans hfunction⟩

lemma modifyFrame {F : Frame → Frame} (hF : ∀ f : Frame, (F f).name = f.name ∧ (F f).function = f.function) :
    SameDefinitions s (s.modifyFrame i F) := by
  refine ⟨rfl, rfl, fun j f hf => ?_, prefix_rfl⟩
  rw [Store.frame?_modifyFrame, hf]
  split
  · exact ⟨F f, rfl, hF f⟩
  · exact ⟨f, rfl, rfl, rfl⟩

lemma push (g : Frame) : SameDefinitions s { s with frames := s.frames.push g } := by
  refine ⟨rfl, rfl, fun j f hf => ⟨f, ?_, rfl, rfl⟩, prefix_rfl⟩
  simp only [Store.frame?, Array.getElem?_push, if_neg (Nat.ne_of_lt (Store.lt_of_frame? hf))]
  exact hf

lemma calls (s : Store) (is : List Nat) (cs : List Scope) : SameDefinitions s { s with calls := is, scopes := cs } :=
  of_frames rfl rfl rfl prefix_rfl

lemma remember (s : Store) (call : Call) (v : Value) : SameDefinitions s { s with memo := s.memo.insert call v } := by
  refine of_frames rfl rfl rfl ?_
  rw [Registry.keys_insert]
  split
  · exact prefix_rfl
  · exact prefix_append _ _

lemma entered {name : Value} (h : Entered s name i t) : SameDefinitions s t := by
  cases h with
  | copy => exact (push _).trans (calls _ _ _)
  | own =>
    have hm : SameDefinitions s (s.modifyFrame i fun f =>
      { f with parameters := [], arguments := [], caller := s.calls.head? }) := modifyFrame fun _ => ⟨rfl, rfl⟩
    exact hm.trans (calls _ _ _)

end SameDefinitions

def Node.Undefining (n : Node) : Prop :=
  n.IsInner ∨ Tree .statement n ∧ (n.kind = .printNumber ∨ n.kind = .printBool)

namespace Node.Undefining

variable {n c : Node}

lemma isTree (h : n.Undefining) : n.IsTree := by
  obtain ⟨x, _, hx⟩ | ⟨hx, _⟩ := h
  · exact ⟨x, hx⟩
  · exact ⟨.statement, hx⟩

lemma child (h : n.Undefining) (hc : c ∈ n.children) : c.Undefining := by
  obtain h | ⟨h, hk⟩ := h
  · exact .inl (h.child hc)
  · left
    cases h with
    | statement h => exact absurd hk (not_or.mpr (h.isInner (by simp [Symbol.IsInner])).kind_ne.2)
    | printNumber h | printBool h =>
      obtain rfl : c = _ := by simpa [Node.children] using hc
      exact h.isInner (by simp [Symbol.IsInner])
    | variableDefinition | functionDefinition => simp [Node.kind] at hk

lemma kind_ne (h : n.Undefining) : n.kind ≠ .definition := by
  obtain h | ⟨_, hk | hk⟩ := h
  · exact h.kind_ne.1.1
  · simp [hk]
  · simp [hk]

end Node.Undefining

lemma stable_sameDefinitions : Stable Node.Undefining Store.Proper fun s t => SameDefinitions s t ∧ Grown s t where
  refl s := ⟨.refl s, stable_grown.refl s⟩
  trans h h' := ⟨h.1.trans h'.1, h.2.trans h'.2⟩
  keeps h := h.2.2
  child := .child
  function hs hf hc := .inl (hs.function _ _ _ hf hc).inner_function
  plain hn h := by
    refine ⟨?_, h.grown hn.isTree⟩
    cases h with
    | global _ hk => exact (hn.kind_ne hk).elim
    | function hk => exact (hn.kind_ne hk).elim
    | operators | print => exact .of_frames rfl rfl rfl prefix_rfl
    | argument | parameter => exact .modifyFrame fun _ => ⟨rfl, rfl⟩
  calls s is cs := ⟨.calls s is cs, stable_grown.calls s is cs⟩
  memo s call v := ⟨.remember s call v, stable_grown.memo s call v⟩
  opened s hn hk hc := ⟨(SameDefinitions.push _).trans (.calls _ _ _), stable_grown.opened s hn.isTree hk hc⟩
  entered h := ⟨.entered h, stable_grown.entered h⟩
  bindings s i b := ⟨.modifyFrame fun _ => ⟨rfl, rfl⟩, stable_grown.bindings s i b⟩

section Statements

variable {memoize : Bool} {d : Nat} {n : Node} {s : Store}

lemma Node.Undefining.sameDefinitions (hn : n.Undefining) (hs : s.Proper) : SameDefinitions s (evaluate memoize d n s).2 :=
  (stable_sameDefinitions.evaluate d hn hs).1

/-- What a statement does to the definitions: the definition of a variable binds its name to what the expression comes
to, that of a function binds its name to a new record, and whatever else is evaluated changes none. -/
inductive Defining (memoize : Bool) (s : Store) : Node → Store → Prop
  | none {n t} : SameDefinitions s t → Defining memoize s n t
  | variable {v id w j x k e d a u} : evaluate memoize d e s = (.ok a, u) → SameDefinitions s u →
      Defining memoize s (.mk .definition v id [.mk .reference w j [.mk .identifier (.text x) k []], e])
        { u with globals := u.globals.insert ⟨.text x⟩ a }
  | function {v id w j x k e} :
      Defining memoize s (.mk .definition v id [.mk .functionName w j [.mk .identifier (.text x) k []], e])
        { s with
          frames := s.frames.push { name := .text x, function := some e }
          functions := s.functions.insert ⟨.text x⟩ s.frames.size }

/-- Stores that the statements of a program lead to, one after the other, to the last one or to one that fails. -/
inductive Executing (memoize : Bool) : Node → Store → Store → Prop
  | stop {n s t} : Defining memoize s n t → Executing memoize n s t
  | first {v id n m s t} : Defining memoize s n t → Executing memoize (.mk .statements v id [n, m]) s t
  | next {v id n m s t u} : Defining memoize s n t → Executing memoize m t u →
      Executing memoize (.mk .statements v id [n, m]) s u

lemma Tree.defining (hn : Tree .statement n) (hs : s.Proper) : Defining memoize s n (evaluate memoize d n s).2 := by
  cases d with
  | zero => exact .none (.refl s)
  | succ d =>
    cases hn with
    | statement h => exact .none (Node.Undefining.sameDefinitions (.inl (h.isInner (by simp [Symbol.IsInner]))) hs)
    | printNumber h => exact .none (Node.Undefining.sameDefinitions (.inr ⟨.printNumber h, .inl rfl⟩) hs)
    | printBool h => exact .none (Node.Undefining.sameDefinitions (.inr ⟨.printBool h, .inr rfl⟩) hs)
    | functionDefinition hx hy =>
      cases hx with
      | functionName hx =>
        cases hx
        exact .function
    | @variableDefinition v id x y hx hy =>
      have hsame : SameDefinitions s (evaluate memoize d y s).2 :=
        Node.Undefining.sameDefinitions (.inl (hy.isInner (by simp [Symbol.IsInner]))) hs
      cases hx with
      | @reference w j _ hx =>
        cases hx with
        | @identifier x k =>
          have hstep : Eval.step memoize (.mk .definition v id [.mk .reference w j [.mk .identifier (.text x) k []], y]) s =
              .visit y s fun a u => .done (.ok .nothing) { u with globals := u.globals.insert ⟨.text x⟩ a } := rfl
          rw [evaluate, hstep, Course.run]
          rcases hend : evaluate memoize d y s with ⟨f | a, u⟩ <;> rw [hend] at hsame
          · exact .none hsame
          · exact .variable hend hsame

lemma Tree.executing (hn : Tree .statements n) (hs : s.Proper) : Executing memoize n s (evaluate memoize d n s).2 := by
  generalize hx : Symbol.statements = x at hn
  induction hn generalizing d s with
  | lastStatement h => exact .stop (h.defining hs)
  | @statements v id n m h hrest _ ih =>
    cases d with
    | zero => exact .stop (.none (.refl s))
    | succ d =>
      have hdefining : Defining memoize s n (evaluate memoize d n s).2 := h.defining hs
      have hproper := hs.evaluate ⟨_, h⟩ memoize d
      have hstep : Eval.step memoize (.mk .statements v id [n, m]) s =
          .visit n s fun _ u => .visit m u fun _ t => .done (.ok .nothing) t := rfl
      rw [evaluate, hstep, Course.run]
      rcases hend : evaluate memoize d n s with ⟨f | a, u⟩ <;> rw [hend] at hdefining hproper
      · exact .first hdefining
      · refine .next hdefining ?_
        have hrest := ih (d := d) hproper rfl
        change Executing memoize m u (Course.run (evaluate memoize d) (.visit m u fun _ t => .done (.ok Value.nothing) t)).2
        rw [Course.run]
        rcases hend' : evaluate memoize d m u with ⟨f | b, t⟩ <;> rw [hend'] at hrest <;> exact hrest
  | _ => cases hx

end Statements

/-- However deep it may go and whether it succeeds or fails, evaluating an expression prints nothing, changes no variable
and no function, and forgets no result. In a program, only definitions among its statements change any. -/
theorem definitions_kept (memoize : Bool) (d : Nat) {s : Store} (hs : s.Proper) :
    (∀ n, Tree .expression n →
      SameDefinitions s (evaluate memoize d n s).2 ∧ (evaluate memoize d n s).2.out = s.out) ∧
    ∀ p, Tree .statements p → Executing memoize p s (evaluate memoize d p s).2 := by
  refine ⟨fun n hn => ?_, fun p hp => hp.executing hs⟩
  have hinner : n.IsInner := hn.isInner (by simp [Symbol.IsInner])
  exact ⟨Node.Undefining.sameDefinitions (.inl hinner) hs, (stable_sameOut.evaluate d (.inl hinner) hs).1⟩

def identityProgram : Node :=
  .program (.define "x" (.number 1)) [.defineFunction "f" ["y"] (.reference "y")]

theorem definitions_kept_identity : ∃ s : Store, s.Proper ∧ s = (evaluate true 9 identityProgram {}).2 ∧
    Executing true identityProgram {} s ∧ Tree .expression (.call "f" [.reference "x"]) ∧
    (evaluate true 9 (.call "f" [.reference "x"]) s).1.toOption = some (.int 1) ∧
    SameDefinitions s (evaluate true 9 (.call "f" [.reference "x"]) s).2 ∧
    (evaluate true 9 (.call "f" [.reference "x"]) s).2.memo.keys.length = s.memo.keys.length + 1 := by
  have hp : Tree .statements identityProgram := by
    refine Tree.program_of fun m hm => ?_
    obtain rfl | rfl : m = _ ∨ m = _ := by simpa using hm
    · exact .variableDefinition (Tree.reference_of _) .number (by simp [Node.number, Node.kind])
    · exact .functionDefinition (.functionName .identifier) (Tree.function_of _ (.ofReference (Tree.reference_of _)))
  have hs : Store.Proper (evaluate true 9 identityProgram {}).2 := Store.Proper.empty.evaluate ⟨_, hp⟩ true 9
  have hcall : Tree .expression (.call "f" [.reference "x"]) := Tree.call_of _ (by simpa using .ofReference (Tree.reference_of _))
  exact ⟨_, hs, rfl, (definitions_kept true 9 .empty).2 _ hp, hcall, by decide +kernel,
    ((definitions_kept true 9 hs).1 _ hcall).1, by decide +kernel⟩

end LispKit.Lisp
