import LispKit.Proofs.Lisp.Records

/-! Variables: where they are looked up and what is found. -/

namespace LispKit.Lisp

def Store.look (s : Store) (name : Value) : Option Value :=
  match s.scopes.head?, s.calls.head?.bind s.frame? with
  | some .anonymous, some f => f.bindings.get? ⟨name⟩
  | some .defined, some f => (f.binding? (s.callerBinding f name) name).or (s.globals.get? ⟨name⟩)
  | _, _ => s.globals.get? ⟨name⟩

def unbound (name : Value) : Fault :=
  match name.write with
  | .ok key => .missingKey key
  | .error f => f

lemma unbound_ne (name : Value) : unbound name ≠ .tooDeep := by
  unfold unbound
  cases name with
  | int m =>
    rw [Value.write]
    cases Text.exceedsDigitLimit m <;> simp
  | _ => simp [Value.write]

def resolve (name : Value) : Option Value → Except Fault Value
  | some v => .ok v
  | none => .error (unbound name)

lemma resolve_ok {name v : Value} {o : Option Value} : resolve name o = .ok v ↔ o = some v := by
  cases o <;> simp [resolve]

lemma resolve_ne (name : Value) (o : Option Value) : resolve name o ≠ .error .tooDeep := by
  cases o with
  | none => simpa [resolve] using unbound_ne name
  | some v => simp [resolve]

lemma resolve_inj {name : Value} {o o' : Option Value} : resolve name o = resolve name o' ↔ o = o' := by
  cases o <;> cases o' <;> simp [resolve]

section

variable {name : Value} {s : Store} {i : Nat} {f : Frame}

lemma Store.look_global (hs : s.scopes = []) : s.look name = s.globals.get? ⟨name⟩ := by
  simp [look, hs]

lemma Store.look_anonymous (hs : s.scopes.head? = some .anonymous) (hi : s.calls.head? = some i)
    (hf : s.frame? i = some f) : s.look name = f.bindings.get? ⟨name⟩ := by
  simp [look, hs, hi, hf]

lemma Store.look_defined (hs : s.scopes.head? = some .defined) (hi : s.calls.head? = some i)
    (hf : s.frame? i = some f) :
    s.look name = (f.binding? (s.callerBinding f name) name).or (s.globals.get? ⟨name⟩) := by
  simp [look, hs, hi, hf]

namespace Eval

lemma missing_eq {α : Type} (name : Value) (s : Store) :
    (missing name : Eval α) s = .done (.error (unbound name)) s := by
  unfold missing unbound
  cases name.write <;> rfl

lemma lookup_eq (r : Registry Key Value) (name : Value) (s : Store) :
    lookup r name s = .done (resolve name (r.get? ⟨name⟩)) s := by
  unfold lookup
  cases r.get? ⟨name⟩ with
  | some v => rfl
  | none => exact missing_eq name s

lemma lookupIn_eq (h : s.Aligned) (name : Value) :
    lookupIn name (s.scopes.head?.getD .global) s = .done (resolve name (s.look name)) s := by
  cases hscopes : s.scopes with
  | nil =>
    rw [Store.look_global hscopes]
    exact lookup_eq s.globals name s
  | cons x xs =>
    obtain ⟨i, is, hcalls⟩ : ∃ i is, s.calls = i :: is := by
      refine List.exists_cons_of_length_pos ?_
      rw [← h.length, hscopes]
      simp
    obtain ⟨f, hf⟩ := Store.exists_frame (h.live i (by simp [hcalls]))
    have hhead : s.calls.head? = some i := by rw [hcalls]; rfl
    rw [List.head?_cons, Option.getD_some]
    obtain rfl | rfl := h.scope x (by simp [hscopes])
    · rw [Store.look_anonymous (by rw [hscopes]; rfl) hhead hf]
      simp only [lookupIn, bind_apply, currentCall_apply hhead, Course.andThen, frameAt_apply hf]
      exact lookup_eq f.bindings name s
    · rw [Store.look_defined (by rw [hscopes]; rfl) hhead hf]
      change definedBinding name s = _
      rw [definedBinding_apply hhead hf]
      cases f.binding? (s.callerBinding f name) name with
      | some v => rfl
      | none => exact lookup_eq s.globals name s

end Eval

lemma settles_reference {memoize : Bool} {n c : Node} {t : Store} {r : Except Fault Value} (h : s.Aligned)
    (hn : n.Has .reference [c]) : Settles memoize n s r t ↔ r = resolve c.value (s.look c.value) ∧ t = s := by
  have hstep : Eval.step memoize n s = .done (resolve c.value (s.look c.value)) s := by
    obtain ⟨_, _, rfl⟩ := hn.eq_mk
    exact Eval.lookupIn_eq h c.value
  rw [settles_iff, hstep, Course.runs_done]
  constructor
  · exact fun h => h.2
  · rintro ⟨rfl, rfl⟩
    exact ⟨resolve_ne _ _, rfl, rfl⟩

end

end LispKit.Lisp
