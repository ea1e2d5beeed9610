import LispKit.Log
import Mathlib.Tactic.Basic

/-! Outcomes of building with logs, whatever is written to them. -/

namespace LispKit

section Returns

variable {E α β : Type}

def Logging.Returns (x : Logging E α) (a : α) : Prop :=
  ∃ l l', x.run.run l = (.ok a, l')

lemma Logging.Returns.bind {x : Logging E α} {f : α → Logging E β} {b : β} (h : (x >>= f).Returns b) :
    ∃ a, x.Returns a ∧ (f a).Returns b := by
  obtain ⟨l, l', h⟩ := h
  rw [ExceptT.run_bind, StateT.run_bind] at h
  rcases hx : x.run.run l with ⟨_ | a, l₁⟩
  · rw [hx] at h
    cases h
  · rw [hx] at h
    exact ⟨a, ⟨l, l₁, hx⟩, l₁, l', h⟩

lemma Logging.Returns.pure {a b : α} (h : (pure a : Logging E α).Returns b) : a = b := by
  obtain ⟨l, l', h⟩ := h
  cases h
  rfl

lemma Logging.Returns.throw {e : E} {a : α} (h : (throw e : Logging E α).Returns a) : False := by
  obtain ⟨l, l', h⟩ := h
  cases h

lemma Logging.Returns.of_ite {c : Prop} [Decidable c] {x : Logging E Unit} {k : Unit → Logging E β} {b : β}
    (h : (if c then x >>= k else k ()).Returns b) : (k ()).Returns b := by
  split at h
  · obtain ⟨_, _, h⟩ := h.bind
    exact h
  · exact h

end Returns

end LispKit
