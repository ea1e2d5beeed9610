import LispKit.Proofs.Parser.Complete
import LispKit.Proofs.Parser.Shadow

/-! Tracing and tracking change nothing but the log and the places of symbols: a run in any mode goes along with the
run in the plain mode, through errors and their recovery too. -/

namespace LispKit.Parser

open Vocabulary Collection

variable {S V σ E : Type} [DecidableEq S] [Vocabulary S] {h : Host S V σ E} {α : Type} {Q : Quiet h α}
variable {t : Tables S} {g : Grammar S} {p : Production S} {A : Collection S} {start : S} {c c₁ e : Config S V σ}

def Steered (Q : Quiet h α) (t : Tables S) (A : Collection S) (c : Config S V σ) : Prop :=
  ∃ ss w, Normal Q A c ss w ∨ Panic Q t A c ss w

lemma Steered.feed (hc : Steered Q t A c) (hl : c.lookahead = none) : ∃ w, Q.Feed c.host (some w) := by
  obtain ⟨ss, w, hn | hp⟩ := hc
  · cases hn.input with
    | unread _ _ hf => exact ⟨_, hf⟩
    | token hsome _ _ _ _ _ => cases hsome.symm.trans hl
    | atEnd hsome _ _ _ => cases hsome.symm.trans hl
  · obtain ⟨e, hsome, -⟩ := hp.lookahead
    cases hsome.symm.trans hl

lemma Steered.step (ht : Steady t g p A start) (hc : Steered Q t A c)
    (hstep : Parser.step h t {} c = .running c₁) : Steered Q t A c₁ := by
  obtain ⟨ss, w, hn | hp⟩ := hc
  · have heffect := hn.effect ht
    rw [hstep] at heffect
    cases heffect with
    | shift _ _ _ _ hn' _ => exact ⟨_, _, .inl hn'⟩
    | reduce _ _ _ _ hn' _ => exact ⟨_, _, .inl hn'⟩
    | discard _ _ hn' _ => exact ⟨_, _, .inl hn'⟩
    | panic _ hp => exact ⟨_, _, .inr hp⟩
  · obtain ⟨c', hstep', -, hcase⟩ := hp.step ht
    rw [hstep] at hstep'
    obtain rfl := Progress.running.inj hstep'
    rcases hcase with ⟨-, hn⟩ | ⟨top, rest, -, hp'⟩
    · exact ⟨_, _, .inl hn⟩
    · exact ⟨_, _, .inr hp'⟩

/-- A run that comes to an end in the plain mode comes to an end that is alike in every mode in which the surroundings do
not fail. -/
theorem parse_mode {m : Mode} (M : Shadow h h m) (ht : Steady t g p A start)
    (hopen : ∀ {s w}, Q.Feed s (some w) → M.Open s) (hcut : ∀ e, ¬M.Cut e) (hstop : ∀ e, ¬M.Stop e) {host : σ}
    {input : List α} (hf : Q.Feed host (some input)) (hnear : M.Near host host) {n : Nat} {settled : Bool}
    {v : Option V} (hparse : parse h t {} n settled host = .finished v e) :
    ∃ v' e', parse h t m n settled host = .finished v' e' ∧ Option.Rel M.Like v v' ∧ M.Near e.host e'.host := by
  have hstart : Steered Q t A (.start host settled) := ⟨[], input, .inl (normal_start hf)⟩
  have hpursues := parse_pursues M ht.action?_end (fun c hc hl _ => (hc.feed hl).elim fun _ => hopen)
    (fun c c₁ hc => hc.step ht) hnear n hstart
  rw [hparse] at hpursues
  generalize parse h t m n settled host = r at hpursues
  cases hpursues with
  | finished hv hhost => exact ⟨_, _, rfl, hv, hhost⟩
  | cut _ _ hno => exact absurd hno (hcut _)
  | stopped _ _ hno => exact absurd hno (hstop _)

end LispKit.Parser
