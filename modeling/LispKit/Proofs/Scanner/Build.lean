import LispKit.Scanner.Build
import Mathlib.Tactic.Basic

/-! What building a scanner with one state comes to, once its parts are known. -/

namespace LispKit

lemma Logging.run_bind_ok {E α β : Type} {x : Logging E α} {f : α → Logging E β} {a : α} {l l' : Logs}
    (h : x.run.run l = (.ok a, l')) : (x >>= f).run.run l = (f a).run.run l' := by
  rw [ExceptT.run_bind, StateT.run_bind, h]
  rfl

def Logging.passes {E : Type} (x : Logging E Unit) : Bool :=
  match x.run.run {} with
  | (.ok (), ⟨[], []⟩) => true
  | _ => false

lemma Logging.run_of_passes {E : Type} {x : Logging E Unit} (h : x.passes = true) : x.run.run {} = (.ok (), {}) := by
  unfold Logging.passes at h
  split at h
  · rename_i hx
    exact hx
  · cases h

namespace Scanner.Build

variable {V σ : Type} {ds : Declarations (Handler V σ)} {d : Declared V σ}

lemma build_of_parts {ms : List (Master V σ)} {h : Routine (Handler V σ)}
    (hr : (Declared.read ds).run.run {} = (.ok d, {})) (hc : (d.check ds { verbose := true }).run.run {} = (.ok (), {}))
    (hs : d.states = ⟨[(initialState, .inclusive)]⟩)
    (hm : masters ds d.tokenNames (Pattern.compile? { verbose := true }) (ruleTexts d initialState).length
      ((ruleTexts d initialState).map fun r => Declared.groupText r.1 r.2) = .ok ms)
    (he : d.onError.get? initialState = some h) : ∃ states types logs, Scanner.build ds {} =
      (.ok ⟨start (rulesOf d ⟨[(initialState, ms)]⟩), states, types⟩, logs) := by
  unfold Scanner.build Build.build
  rw [Logging.run_bind_ok hr, Logging.run_bind_ok hc]
  refine ⟨d.states.keys, eachOnce (tokenTexts d ++ (literalText d).toList.map String.singleton), {}, ?_⟩
  simp [hs, detail, mastersOf, hm, he, warnState, faulty, Registry.keys]
  rfl

variable {tokenNames : Registry String String} {compile : String → Option Pattern.Compiled} {groups : List String}

lemma master?_of_compile {c : Pattern.Compiled} {ts : List (Option (Nat × Target V σ))}
    (hc : compile ("|".intercalate groups) = some c) (hne : c.names ≠ [])
    (ht : c.names.mapM (targetOf ds tokenNames) = some ts) :
    master? ds tokenNames compile groups = some ⟨"|".intercalate groups, c, ts.filterMap id,
      (c.names.filter fun n => isSet ds n.1).map Prod.fst⟩ := by
  have hguard : (guard (c.names ≠ []) : Option Unit) = some () := if_pos hne
  change (compile ("|".intercalate groups) >>= _) = _
  rw [hc]
  change ((guard (c.names ≠ []) : Option Unit) >>= _) = _
  rw [hguard]
  change (c.names.mapM (targetOf ds tokenNames) >>= _) = _
  rw [ht]
  rfl

lemma masters_of_master {m : Master V σ} (n : Nat) (hg : groups ≠ [])
    (h : master? ds tokenNames compile groups = some m) : masters ds tokenNames compile n groups = .ok [m] := by
  cases groups with
  | nil => exact absurd rfl hg
  | cons g groups =>
    rw [masters.eq_def]
    simp only [h]

end Scanner.Build

end LispKit
