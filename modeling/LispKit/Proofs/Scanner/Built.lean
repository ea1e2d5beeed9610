import LispKit.Proofs.Log
import LispKit.Proofs.Scanner.Settled
import Mathlib.Data.List.Forall2

/-! What a scanner that could be built consists of. -/

namespace LispKit

namespace Logging

variable {E α β : Type}

lemma Returns.ite {c : Prop} [Decidable c] {x y : Logging E α} {a : α} (h : (if c then x else y).Returns a) :
    c ∧ x.Returns a ∨ ¬ c ∧ y.Returns a := by
  split at h
  · exact .inl ⟨‹c›, h⟩
  · exact .inr ⟨‹¬ c›, h⟩

lemma Returns.mapM {f : α → Logging E β} {xs : List α} {ys : List β} (h : (xs.mapM f).Returns ys) :
    List.Forall₂ (fun x y => (f x).Returns y) xs ys := by
  induction xs generalizing ys with
  | nil =>
    rw [List.mapM_nil] at h
    obtain rfl := h.pure
    exact .nil
  | cons x xs ih =>
    rw [List.mapM_cons] at h
    obtain ⟨y, hy, h⟩ := h.bind
    obtain ⟨zs, hzs, h⟩ := h.bind
    obtain rfl := h.pure
    exact .cons hy (ih hzs)

end Logging

namespace Scanner

variable {V σ : Type} {ds : Declarations (Handler V σ)} {opts : BuildOptions} {built : Built V σ} {logs : Logs}

lemma returns_faulty {α : Type} {r : Except Fault α} {a : α} (h : (faulty r).Returns a) : r = .ok a := by
  cases r with
  | ok b => exact congrArg _ h.pure
  | error f => exact h.throw.elim

structure Parts (ds : Declarations (Handler V σ)) (opts : BuildOptions) (built : Built V σ) (d : Declared V σ)
    (all : List (String × List (Master V σ))) : Prop where
  read : (Declared.read ds).Returns d
  check : (d.check ds opts.flags).Returns ()
  masters : List.Forall₂ (fun state e => e.1 = state ∧
    Build.masters ds d.tokenNames (Pattern.compile? opts.flags) (Build.ruleTexts d state).length
      ((Build.ruleTexts d state).map fun r => Declared.groupText r.1 r.2) = .ok e.2) d.states.keys all
  scanner : built.scanner = Build.start (Build.rulesOf d ⟨all⟩)
  states : built.states = d.states.keys

lemma parts_of_build (h : build ds opts = (.ok built, logs)) : ∃ d all, Parts ds opts built d all := by
  have hreturns : (Build.build ds opts).Returns built := ⟨{}, logs, h⟩
  obtain ⟨d, hread, h⟩ := hreturns.bind
  obtain ⟨_, hcheck, h⟩ := h.bind
  obtain ⟨_, -, h⟩ := h.bind
  obtain ⟨all, hall, h⟩ := h.bind
  have h := Logging.Returns.of_ite h
  obtain ⟨_, -, h⟩ := h.bind
  obtain rfl := h.pure
  refine ⟨d, all, hread, hcheck, ?_, rfl, rfl⟩
  refine hall.mapM.imp fun state e he => ?_
  obtain ⟨ms, hms, he⟩ := he.bind
  obtain ⟨_, -, he⟩ := he.bind
  obtain rfl := he.pure
  exact ⟨rfl, by simpa only [List.length_map] using returns_faulty hms⟩

lemma settled_of_build (h : build ds opts = (.ok built, logs)) : built.scanner.Settled := by
  obtain ⟨d, all, hp⟩ := parts_of_build h
  rw [hp.scanner]
  exact settled_start _

end Scanner

end LispKit
