import LispKit.Lisp.Eval
import Mathlib.Logic.Relation

/-! Courses of evaluation: what they come to, which descendants they evaluate in which stores, and
evaluation without a bound on its depth. -/

namespace LispKit.Lisp

open Course

abbrev Meaning := Node → Store → Except Fault Value → Store → Prop

namespace Course

variable {α β : Type} {G H : Meaning} {K L : Node → Store → Prop} {c : Course α} {r r' : Except Fault α} {t s : Store}
  {f : α → Store → Course β} {m : Node} {next : Value → Store → Course α}

inductive Runs (G : Meaning) : Course α → Except Fault α → Store → Prop
  | done (r : Except Fault α) (s : Store) : Runs G (.done r s) r s
  | next {n s next v s' r t} : G n s (.ok v) s' → Runs G (next v s') r t → Runs G (.visit n s next) r t
  | fail {n s next e t} : G n s (.error e) t → Runs G (.visit n s next) (.error e) t

/-- A course evaluates a descendant in a store; those before it have the given property. -/
inductive Visits (G : Meaning) (K : Node → Store → Prop) : Course α → Node → Store → Prop
  | here {n s next} : Visits G K (.visit n s next) n s
  | later {n s next v s' m t} : K n s → G n s (.ok v) s' → Visits G K (next v s') m t →
      Visits G K (.visit n s next) m t

@[simp] lemma runs_done : (done r s).Runs G r' t ↔ r' = r ∧ t = s := by
  constructor
  · rintro ⟨⟩
    exact ⟨rfl, rfl⟩
  · rintro ⟨rfl, rfl⟩
    exact .done _ _

@[simp] lemma runs_visit {n : Node} : (visit n s next).Runs G r t ↔
      (∃ v s', G n s (.ok v) s' ∧ (next v s').Runs G r t) ∨ ∃ e, r = .error e ∧ G n s (.error e) t := by
  constructor
  · rintro (_ | ⟨hg, hr⟩ | hg)
    · exact .inl ⟨_, _, hg, hr⟩
    · exact .inr ⟨_, rfl, hg⟩
  · rintro (⟨v, s', hg, hr⟩ | ⟨e, rfl, hg⟩)
    · exact .next hg hr
    · exact .fail hg

lemma runs_andThen {r : Except Fault β} : (c.andThen f).Runs G r t ↔
      (∃ a s, c.Runs G (.ok a) s ∧ (f a s).Runs G r t) ∨ ∃ e, r = .error e ∧ c.Runs G (.error e) t := by
  induction c with
  | done r' s =>
    cases r' with
    | ok a => simp [andThen, and_assoc]
    | error e => simp [andThen, eq_comm, and_left_comm]
  | visit n s next ih =>
    simp only [andThen, runs_visit, ih]
    constructor
    · rintro (⟨v, s', hg, ⟨a, u, hc, hf⟩ | ⟨e, rfl, hc⟩⟩ | ⟨e, rfl, hg⟩)
      · exact .inl ⟨a, u, .inl ⟨v, s', hg, hc⟩, hf⟩
      · exact .inr ⟨e, rfl, .inl ⟨v, s', hg, hc⟩⟩
      · exact .inr ⟨e, rfl, .inr ⟨e, rfl, hg⟩⟩
    · rintro (⟨a, u, ⟨v, s', hg, hc⟩ | ⟨e, he, _⟩, hf⟩ | ⟨e, rfl, ⟨v, s', hg, hc⟩ | ⟨e', he, hg⟩⟩)
      · exact .inl ⟨v, s', hg, .inl ⟨a, u, hc, hf⟩⟩
      · cases he
      · exact .inl ⟨v, s', hg, .inr ⟨e, rfl, hc⟩⟩
      · exact .inr ⟨e, rfl, by cases he; exact hg⟩

@[simp] lemma visits_done : ¬ (done r s).Visits G K m t := by
  rintro ⟨⟩

@[simp] lemma visits_visit {n : Node} : (visit n s next).Visits G K m t ↔
      (m = n ∧ t = s) ∨ ∃ v s', K n s ∧ G n s (.ok v) s' ∧ (next v s').Visits G K m t := by
  constructor
  · rintro (_ | ⟨hk, hg, hv⟩)
    · exact .inl ⟨rfl, rfl⟩
    · exact .inr ⟨_, _, hk, hg, hv⟩
  · rintro (⟨rfl, rfl⟩ | ⟨v, s', hk, hg, hv⟩)
    · exact .here
    · exact .later hk hg hv

lemma Visits.mono (h : c.Visits G K m t) (hG : ∀ n s r t, G n s r t → H n s r t) (hK : ∀ n s, K n s → L n s) :
    c.Visits H L m t := by
  induction h with
  | here => exact .here
  | later hk hg _ ih => exact .later (hK _ _ hk) (hG _ _ _ _ hg) ih

lemma Visits.mono_ok (h : c.Visits G K m t) (hG : ∀ n s v t, G n s (.ok v) t → H n s (.ok v) t) : c.Visits H K m t := by
  induction h with
  | here => exact .here
  | later hk hg _ ih => exact .later hk (hG _ _ _ _ hg) ih

lemma Visits.visits (h : c.Visits G K m t) : c.Visits G (fun n s => c.Visits G K n s) m t := by
  induction h with
  | here => exact .here
  | later hk hg _ ih => exact .later .here hg (ih.mono (fun _ _ _ _ h => h) fun _ _ h => .later hk hg h)

lemma visits_andThen : (c.andThen f).Visits G K m t ↔ c.Visits G K m t ∨
      ∃ a s, c.Runs (fun n s r t => K n s ∧ G n s r t) (.ok a) s ∧ (f a s).Visits G K m t := by
  induction c with
  | done r s =>
    cases r with
    | ok a => simp [andThen, and_assoc]
    | error e => simp [andThen]
  | visit n s next ih =>
    simp only [andThen, visits_visit, runs_visit, ih]
    constructor
    · rintro (h | ⟨v, s', hk, hg, hv | ⟨a, u, hr, hv⟩⟩)
      · exact .inl (.inl h)
      · exact .inl (.inr ⟨v, s', hk, hg, hv⟩)
      · exact .inr ⟨a, u, .inl ⟨v, s', ⟨hk, hg⟩, hr⟩, hv⟩
    · rintro ((h | ⟨v, s', hk, hg, hv⟩) | ⟨a, u, ⟨v, s', ⟨hk, hg⟩, hr⟩ | ⟨e, he, _⟩, hv⟩)
      · exact .inl h
      · exact .inr ⟨v, s', hk, hg, .inl hv⟩
      · exact .inr ⟨v, s', hk, hg, .inr ⟨a, u, hr, hv⟩⟩
      · cases he

lemma Runs.mono (h : c.Runs G r t) (hG : ∀ n s r t, G n s r t → H n s r t) : c.Runs H r t := by
  induction h with
  | done r s => exact .done r s
  | next hg _ ih => exact .next (hG _ _ _ _ hg) ih
  | fail hg => exact .fail (hG _ _ _ _ hg)

lemma Runs.visits_after {a : α} (h : c.Runs G (.ok a) s) (hv : (f a s).Visits G (fun _ _ => True) m t) :
    (c.andThen f).Visits G (fun _ _ => True) m t :=
  visits_andThen.mpr (.inr ⟨a, s, h.mono fun _ _ _ _ hg => ⟨trivial, hg⟩, hv⟩)

lemma Runs.visits (h : c.Runs G r t) : c.Runs (fun n s r t => c.Visits G (fun _ _ => True) n s ∧ G n s r t) r t := by
  induction h with
  | done r s => exact .done r s
  | next hg _ ih =>
    refine .next ⟨.here, hg⟩ (ih.mono fun n s r t h => ⟨.later trivial hg h.1, h.2⟩)
  | fail hg => exact .fail ⟨.here, hg⟩

lemma Runs.mono_of_ne {f : Fault} (h : c.Runs G r t) (hr : r ≠ .error f)
    (hG : ∀ n s r t, G n s r t → r ≠ .error f → H n s r t) : c.Runs H r t := by
  induction h with
  | done r s => exact .done r s
  | next hg _ ih => exact .next (hG _ _ _ _ hg (by simp)) (ih hr)
  | fail hg => exact .fail (hG _ _ _ _ hg (by simpa using hr))

lemma runs_iff_run {g : Node → Store → Except Fault Value × Store} :
    c.Runs (fun n s r t => g n s = (r, t)) r t ↔ c.run g = (r, t) := by
  induction c with
  | done r' s => simp [run, eq_comm]
  | visit n s next ih =>
    simp only [runs_visit, run, ih]
    rcases hg : g n s with ⟨e | v, s'⟩
    · simp [eq_comm, and_left_comm]
    · simp [and_assoc]

end Course

variable {memoize : Bool} {n : Node} {v : Value}

def Settles (memoize : Bool) (n : Node) (s : Store) (r : Except Fault Value) (t : Store) : Prop :=
  r ≠ .error .tooDeep ∧ ∃ d, evaluate memoize d n s = (r, t)

lemma evaluate_mono {d e : Nat} {s t : Store} {r : Except Fault Value} (hde : d ≤ e)
    (h : evaluate memoize d n s = (r, t)) (hr : r ≠ .error .tooDeep) : evaluate memoize e n s = (r, t) := by
  induction d generalizing e n s r t with
  | zero =>
    rw [evaluate, Prod.mk.injEq] at h
    exact (hr h.1.symm).elim
  | succ d ih =>
    obtain ⟨e, rfl⟩ : ∃ e', e = e' + 1 := ⟨e - 1, by omega⟩
    rw [evaluate, ← runs_iff_run] at h ⊢
    exact h.mono_of_ne hr fun n s r t hg hr => ih (by omega) hg hr

lemma Settles.unique {s t t' : Store} {r r' : Except Fault Value} (h : Settles memoize n s r t)
    (h' : Settles memoize n s r' t') : r = r' ∧ t = t' := by
  obtain ⟨hr, d, hd⟩ := h
  obtain ⟨hr', d', hd'⟩ := h'
  have he := evaluate_mono (Nat.le_max_left d d') hd hr
  rw [evaluate_mono (Nat.le_max_right d d') hd' hr', Prod.mk.injEq] at he
  exact ⟨he.1.symm, he.2.symm⟩

lemma Course.Runs.bounded {α : Type} {c : Course α} {r : Except Fault α} {t : Store}
    (h : c.Runs (Settles memoize) r t) :
    ∃ d, ∀ e, d ≤ e → c.Runs (fun n s r t => evaluate memoize e n s = (r, t)) r t := by
  induction h with
  | done r s => exact ⟨0, fun _ _ => .done r s⟩
  | next hg _ ih =>
    obtain ⟨hr, d, hd⟩ := hg
    obtain ⟨d', ih⟩ := ih
    refine ⟨max d d', fun e he => .next (evaluate_mono (by omega) hd hr) (ih e (by omega))⟩
  | fail hg =>
    obtain ⟨hr, d, hd⟩ := hg
    exact ⟨d, fun e he => .fail (evaluate_mono he hd hr)⟩

lemma settles_iff {s t : Store} {r : Except Fault Value} : Settles memoize n s r t ↔
      r ≠ .error .tooDeep ∧ (Eval.step memoize n s).Runs (Settles memoize) r t := by
  constructor
  · rintro ⟨hr, d, hd⟩
    refine ⟨hr, ?_⟩
    cases d with
    | zero =>
      rw [evaluate, Prod.mk.injEq] at hd
      exact (hr hd.1.symm).elim
    | succ d =>
      rw [evaluate, ← runs_iff_run] at hd
      exact hd.mono_of_ne hr fun n s r t hg hr => ⟨hr, d, hg⟩
  · rintro ⟨hr, h⟩
    obtain ⟨d, hd⟩ := h.bounded
    exact ⟨hr, d + 1, runs_iff_run.mp (hd d (Nat.le_refl d))⟩

lemma Settles.of_runs {s t : Store}
    (h : (Eval.step memoize n s).Runs (Settles memoize) (.ok v) t) : Settles memoize n s (.ok v) t :=
  settles_iff.mpr ⟨by simp, h⟩

def Enters (memoize : Bool) (c c' : Node × Store) : Prop :=
  (Eval.step memoize c.1 c.2).Visits (Settles memoize) (fun _ _ => True) c'.1 c'.2

lemma Enters.of_evaluate {d : Nat} {m : Node} {s t : Store}
    (h : (Eval.step memoize n s).Visits (fun n s r t => evaluate memoize d n s = (r, t)) (fun _ _ => True) m t) :
    Enters memoize (n, s) (m, t) :=
  h.mono_ok fun _ _ _ _ he => ⟨by simp, d, he⟩

lemma Settles.induction {P : Meaning} (step : ∀ n s r t, Settles memoize n s r t → (Eval.step memoize n s).Runs
        (fun m u r t => Enters memoize (n, s) (m, u) ∧ Settles memoize m u r t ∧ P m u r t) r t →
      P n s r t) {s t : Store} {r : Except Fault Value} (h : Settles memoize n s r t) : P n s r t := by
  obtain ⟨hr, d, hd⟩ := h
  -- The depth bounds the nesting of evaluations; a node without any depth left does not settle.
  induction d generalizing n s r t with
  | zero =>
    rw [evaluate, Prod.mk.injEq] at hd
    exact (hr hd.1.symm).elim
  | succ d ih =>
    refine step n s r t ⟨hr, d + 1, hd⟩ ?_
    rw [evaluate, ← runs_iff_run] at hd
    have hs := hd.mono_of_ne hr (H := fun n s r t => Settles memoize n s r t ∧ P n s r t)
      fun n s r t hg hr => ⟨⟨hr, d, hg⟩, ih hr hg⟩
    exact hs.visits.mono fun m u r t h => ⟨h.1.mono (fun _ _ _ _ h => h.1) fun _ _ h => h, h.2⟩

lemma Settles.induction_ok {Q : Node → Store → Value → Store → Prop} (step : ∀ n s v t, (Eval.step memoize n s).Runs
      (fun m u r t => Enters memoize (n, s) (m, u) ∧ Settles memoize m u r t ∧ ∀ w, r = .ok w → Q m u w t)
      (.ok v) t → Q n s v t) {s t : Store} (h : Settles memoize n s (.ok v) t) : Q n s v t :=
  Settles.induction (P := fun n s r t => ∀ w, r = .ok w → Q n s w t)
    (fun n s _ t _ hr w hw => step n s w t (hw ▸ hr)) h v rfl

def Reaches (memoize : Bool) : Node × Store → Node × Store → Prop :=
  Relation.ReflTransGen (Enters memoize)

end LispKit.Lisp
