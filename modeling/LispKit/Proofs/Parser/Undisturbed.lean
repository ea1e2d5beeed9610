import LispKit.Parser.Engine
import LispKit.Proofs.Grammar.Rightmost
import Mathlib.Data.List.Basic

/-! Undisturbed parsing: what the calls of the rules are recorded with, and what a step can do that is neither an error
nor made by a rule that asks for recovery. -/

set_option linter.unusedSectionVars false

namespace LispKit.Parser

open Vocabulary

variable {S V σ E : Type} [DecidableEq S] [Vocabulary S] {reply : RuleReply S V E}

abbrev Record (S V E : Type) := List (Reduction S V × RuleReply S V E)

def Host.recording (h : Host S V σ E) : Host S V (σ × Record S V E) E where
  nextToken s := ((h.nextToken s.1).1, (h.nextToken s.1).2, s.2)
  place s := h.place s.1
  apply r s := ((h.apply r s.1).1, (h.apply r s.1).2, s.2 ++ [(r, (h.apply r s.1).1)])
  onError := h.onError.map fun f offending s => ((f offending s.1).1, (f offending s.1).2, s.2)
  display := h.display
  nothing := h.nothing
  errorValue := h.errorValue
  ofToken := h.ofToken

lemma Host.of_recording_apply {h : Host S V σ E} {r : Reduction S V} {s s' : σ × Record S V E}
    (happly : h.recording.apply r s = (reply, s')) : s' = ((h.apply r s.1).2, s.2 ++ [(r, reply)]) := by
  rw [← (Prod.mk.inj happly).2, ← (Prod.mk.inj happly).1]

lemma Host.mem_recording_apply {h : Host S V σ E} {r : Reduction S V} {s s' : σ × Record S V E}
    (happly : h.recording.apply r s = (reply, s')) : (r, reply) ∈ s'.2 := by
  rw [of_recording_apply happly]
  exact List.mem_append_right _ (List.mem_singleton_self _)

structure Host.Feeds (h : Host S V σ E) (rest : σ → List (StackSymbol S V)) : Prop where
  token : ∀ s, (h.nextToken s).1 = .ok (rest s).head?
  next : ∀ s, rest (h.nextToken s).2 = (rest s).tail
  apply : ∀ r s, rest (h.apply r s).2 = rest s

def errs (h : Host S V σ E) (t : Tables S) (c : Config S V σ) : Bool :=
  (t.default? c.state).isNone && match fetch h c with
    | (.ok ahead, _) => (t.action? c.state ahead.type).isNone
    | (.error _, _) => false

lemma errs_of_fetch {h : Host S V σ E} {t : Tables S} {c c' : Config S V σ} {ahead : StackSymbol S V}
    (hd : t.default? c.state = none) (hfetch : fetch h c = (.ok ahead, c')) (ha : t.action? c.state ahead.type = none) :
    errs h t c = true := by
  simp [errs, hd, hfetch, ha]

def RuleReply.isRaised : RuleReply S V E → Bool
  | .raised => true
  | _ => false

def calm (h : Host S V σ E) (t : Tables S) (c : Config S V (σ × Record S V E)) : Bool :=
  !errs h.recording t c && c.host.2.all fun call => !call.2.isRaised

lemma calm_iff {h : Host S V σ E} {t : Tables S} {c : Config S V (σ × Record S V E)} :
    calm h t c = true ↔ errs h.recording t c = false ∧ ∀ call ∈ c.host.2, call.2.isRaised = false := by
  simp [calm]

def Undisturbed (h : Host S V σ E) (t : Tables S) (m : Mode) (settled : Bool) (host : σ) : Prop :=
  ∀ steps c, parse h.recording t m steps settled (host, []) = .running c → calm h t c = true

def Accepts (h : Host S V σ E) (t : Tables S) (m : Mode) (settled : Bool) (host : σ) (v : Option V) (c : Config S V σ) :
    Prop :=
  ∃ n c₁ ahead c₂, parse h t m n settled host = .running c₁ ∧ t.default? c₁.state = none ∧
    fetch h c₁ = (.ok ahead, c₂) ∧ t.action? c₁.state ahead.type = some .accept ∧
    ∀ k, n < k → parse h t m k settled host = .finished v c

section Recording

variable {h : Host S V σ E} {t : Tables S} {m : Mode}

def Config.unrecorded (c : Config S V (σ × Record S V E)) : Config S V σ :=
  { c with host := c.host.1 }

def Progress.unrecorded : Progress S V (σ × Record S V E) E → Progress S V σ E
  | .running c => .running c.unrecorded
  | .finished v c => .finished v c.unrecorded
  | .failed e c => .failed e c.unrecorded

variable {c : Config S V (σ × Record S V E)}

lemma traced_unrecorded {line : Except Fault String} {k : Config S V (σ × Record S V E) → Progress S V (σ × Record S V E) E}
    {k' : Config S V σ → Progress S V σ E} (hk : ∀ c, (k c).unrecorded = k' c.unrecorded) :
    (traced m line c k).unrecorded = traced m line c.unrecorded k' := by
  unfold traced
  split
  · split
    · rfl
    · exact hk _
  · exact hk c

lemma panicStep_unrecorded (ahead : StackSymbol S V) :
    (panicStep h.recording m ahead c).unrecorded = panicStep h m ahead c.unrecorded := by
  rcases c with ⟨states, symbols, state, lookahead, pushback, errorCount, settled, log, host⟩
  unfold panicStep Config.unrecorded
  rcases symbols with _ | ⟨top, rest⟩
  · dsimp only
    split_ifs <;> rfl
  · dsimp only
    generalize (if m.tracking then top.extendedTo ahead else .ok top) = extended
    generalize (if m.tracking then ahead.placedAt top else .ok ahead) = placed
    split_ifs
    · rfl
    · rfl
    · cases extended <;> rfl
    · rfl
    · cases placed with
      | error f => rfl
      | ok ahead => rcases states with _ | ⟨q, _ | ⟨r, qs⟩⟩ <;> rfl

lemma report_unrecorded (ahead : StackSymbol S V) :
    (report h.recording m ahead c).unrecorded = report h m ahead c.unrecorded := by
  unfold report
  rw [show h.recording.onError = h.onError.map _ from rfl]
  cases h.onError with
  | none =>
    dsimp only [Option.map_none]
    split_ifs
    · rfl
    · exact panicStep_unrecorded ahead
  | some f =>
    dsimp only [Option.map_some]
    rw [show c.unrecorded.host = c.host.1 from rfl]
    rcases f (if ahead.type = endMark then none else some ahead) c.host.1 with ⟨e | ⟨token, recovered, restarted⟩, host⟩
    · rfl
    · cases recovered with
      | true => cases restarted <;> rfl
      | false => cases restarted <;> exact panicStep_unrecorded ahead

lemma recover_unrecorded (ahead : StackSymbol S V) :
    (recover h.recording m ahead c).unrecorded = recover h m ahead c.unrecorded := by
  refine traced_unrecorded fun c => ?_
  unfold Config.unrecorded
  dsimp only
  split_ifs
  · exact report_unrecorded ahead
  · exact panicStep_unrecorded ahead

lemma accept_unrecorded : (accept h.recording m c).unrecorded = accept h m c.unrecorded := by
  unfold accept
  rw [show c.unrecorded.symbols = c.symbols from rfl]
  cases c.symbols with
  | nil => rfl
  | cons top rest => exact traced_unrecorded fun c => rfl

lemma shift_unrecorded (s : StackSymbol S V) (target : Nat) :
    (shift (E := E) m s target c).unrecorded = shift m s target c.unrecorded :=
  traced_unrecorded fun _ => rfl

lemma pushReduced_unrecorded (s : StackSymbol S V) (name : S) :
    (pushReduced (E := E) t s name c).unrecorded = pushReduced t s name c.unrecorded := by
  unfold pushReduced
  rw [show c.unrecorded.states = c.states from rfl]
  cases gotoOf t c.states name <;> rfl

lemma backOut_unrecorded (s : StackSymbol S V) : (backOut h.recording s c).unrecorded = backOut h s c.unrecorded := by
  unfold backOut
  rw [show c.unrecorded.states = c.states from rfl]
  rcases c.states with _ | ⟨q, _ | ⟨r, qs⟩⟩ <;> rfl

lemma reduce_unrecorded (p : Production S) : (reduce h.recording t m p c).unrecorded = reduce h t m p c.unrecorded := by
  refine traced_unrecorded fun c => ?_
  have hnew : newSymbol h.recording m p (c.symbols.take p.symbols.length).reverse c =
    newSymbol h m p (c.unrecorded.symbols.take p.symbols.length).reverse c.unrecorded := rfl
  cases hs : newSymbol h m p (c.unrecorded.symbols.take p.symbols.length).reverse c.unrecorded with
  | error f =>
    simp only [hnew, hs]
    rfl
  | ok s =>
    obtain ⟨reply, host, hreply⟩ : ∃ reply host, h.apply ⟨p, s, (c.unrecorded.symbols.take p.symbols.length).reverse,
      c.unrecorded.symbols.drop p.symbols.length⟩ c.unrecorded.host = (reply, host) := ⟨_, _, rfl⟩
    have hrecord : h.recording.apply ⟨p, s, (c.symbols.take p.symbols.length).reverse,
        c.symbols.drop p.symbols.length⟩ c.host = (reply, host, c.host.2 ++ [(_, reply)]) :=
      congrArg (fun x => (x.1, x.2, c.host.2 ++ [(_, x.1)])) hreply
    simp only [hnew, hs, hrecord, hreply]
    cases reply with
    | failed e => rfl
    | raised => exact backOut_unrecorded s
    | done s' recovered => exact traced_unrecorded fun c => pushReduced_unrecorded s' p.name

lemma reduceBy_unrecorded (n : Nat) : (reduceBy h.recording t m n c).unrecorded = reduceBy h t m n c.unrecorded := by
  unfold reduceBy
  cases t.productions[n]? with
  | none => rfl
  | some p => exact reduce_unrecorded p

lemma act_unrecorded (ahead : StackSymbol S V) :
    (act h.recording t m ahead c).unrecorded = act h t m ahead c.unrecorded := by
  unfold act
  rw [show c.unrecorded.state = c.state from rfl]
  rcases t.action? c.state ahead.type with _ | target | n | _
  · exact recover_unrecorded ahead
  · exact shift_unrecorded ahead target
  · exact reduceBy_unrecorded n
  · exact accept_unrecorded

lemma fetch_unrecorded : fetch h c.unrecorded = ((fetch h.recording c).1, (fetch h.recording c).2.unrecorded) := by
  rcases c with ⟨states, symbols, state, lookahead, pushback, errorCount, settled, log, host⟩
  unfold fetch
  rcases lookahead with _ | s
  · rcases pushback with _ | ⟨s, rest⟩
    · dsimp only [Config.unrecorded, Host.recording]
      rcases h.nextToken host.1 with ⟨e | s, host⟩ <;> rfl
    · rfl
  · rfl

lemma step_unrecorded : (step h.recording t m c).unrecorded = step h t m c.unrecorded := by
  refine traced_unrecorded fun c => ?_
  dsimp only
  rw [show c.unrecorded.state = c.state from rfl]
  cases t.default? c.state with
  | some n => exact traced_unrecorded fun c => traced_unrecorded fun c => reduceBy_unrecorded n
  | none =>
    dsimp only
    rw [fetch_unrecorded]
    rcases fetch h.recording c with ⟨e | s, c'⟩
    · rfl
    · exact traced_unrecorded fun c => act_unrecorded s

lemma run_unrecorded (n : Nat) : (run h.recording t m n c).unrecorded = run h t m n c.unrecorded := by
  induction n generalizing c with
  | zero => rfl
  | succ n ih =>
    unfold run
    rw [← step_unrecorded]
    cases step h.recording t m c with
    | running c => exact ih
    | finished v c => rfl
    | failed e c => rfl

lemma parse_unrecorded (n : Nat) (settled : Bool) (host : σ) :
    (parse h.recording t m n settled (host, [])).unrecorded = parse h t m n settled host :=
  traced_unrecorded fun _ => run_unrecorded n

lemma Accepts.unrecorded {settled : Bool} {host : σ} {v : Option V}
    (h' : Accepts h.recording t m settled (host, []) v c) : Accepts h t m settled host v c.unrecorded := by
  obtain ⟨n, c₁, ahead, c₂, hrun, hd, hfetch, ha, hend⟩ := h'
  have hparse : ∀ k, parse h t m k settled host = (parse h.recording t m k settled (host, [])).unrecorded :=
    fun k => (parse_unrecorded k settled host).symm
  refine ⟨n, c₁.unrecorded, ahead, c₂.unrecorded, ?_, hd, ?_, ha, ?_⟩
  · rw [hparse, hrun]
    rfl
  · rw [fetch_unrecorded, hfetch]
  · intro k hk
    rw [hparse, hend k hk]
    rfl

end Recording

lemma backOut_host {h : Host S V σ E} {s : StackSymbol S V} (c : Config S V σ) : (backOut h s c).config.host = c.host := by
  unfold backOut
  split <;> rfl

section Inversion

variable {h : Host S V σ E} {t : Tables S} {m : Mode} {c c' : Config S V σ} {v : Option V} {r : Progress S V σ E}
  {settled : Bool} {host : σ}

lemma exists_run (h : Host S V σ E) (t : Tables S) (m : Mode) (settled : Bool) (host : σ) :
    ∃ log, ∀ n, parse h t m n settled host = run h t m n { Config.start host settled with log := log } := by
  unfold parse traced
  cases m.tracing with
  | true => exact ⟨_, fun _ => rfl⟩
  | false => exact ⟨_, fun _ => rfl⟩

lemma run_of_finished {n k : Nat} (hrun : run h t m n c = .finished v c') (hle : n ≤ k) :
    run h t m k c = .finished v c' := by
  induction n generalizing c k with
  | zero => cases hrun
  | succ n ih =>
    cases k with
    | zero => omega
    | succ k =>
      rw [run] at hrun ⊢
      cases hstep : step h t m c with
      | running c₁ =>
        rw [hstep] at hrun
        exact ih hrun (by omega)
      | finished v₁ c₁ => rwa [hstep] at hrun
      | failed e c₁ => rwa [hstep] at hrun

def Progress.isFinished : Progress S V σ E → Bool
  | .finished _ _ => true
  | _ => false

def calmUpTo (h : Host S V σ E) (t : Tables S) (m : Mode) (settled : Bool) (host : σ) (n : Nat) : Bool :=
  (List.range n).all fun k =>
    match parse h.recording t m k settled (host, []) with
    | .running c => calm h t c
    | _ => true

lemma parse_of_finished {n k : Nat} (hparse : (parse h t m n settled host).isFinished = true) (hle : n ≤ k) :
    parse h.recording t m k settled (host, []) = parse h.recording t m n settled (host, []) := by
  obtain ⟨log, hlog⟩ := exists_run h.recording t m settled (host, [])
  rw [← parse_unrecorded, hlog] at hparse
  rw [hlog, hlog]
  cases hrun : run h.recording t m n { Config.start (host, []) settled with log := log } with
  | running c =>
    rw [hrun] at hparse
    cases hparse
  | failed e c =>
    rw [hrun] at hparse
    cases hparse
  | finished v c => exact run_of_finished hrun hle

lemma undisturbed_of_calmUpTo {n : Nat} (hparse : (parse h t m n settled host).isFinished = true)
    (hcalm : calmUpTo h t m settled host n = true) : Undisturbed h t m settled host := by
  intro k c hk
  have hlt : k < n := by
    by_contra hle
    rw [parse_of_finished hparse (Nat.not_lt.mp hle)] at hk
    rw [← parse_unrecorded, hk] at hparse
    cases hparse
  have hk' := List.all_eq_true.mp hcalm k (List.mem_range.mpr hlt)
  rwa [hk] at hk'

def Progress.Succeeds : Progress S V σ E → Prop
  | .failed _ _ => False
  | _ => True

lemma of_traced {line : Except Fault String} {k : Config S V σ → Progress S V σ E} (hr : r.Succeeds)
    (h : traced m line c k = r) : ∃ log, k { c with log := log } = r := by
  unfold traced at h
  split at h
  · split at h
    · subst h
      exact hr.elim
    · exact ⟨_, h⟩
  · exact ⟨c.log, h⟩

lemma of_step (hr : r.Succeeds) (h' : step h t m c = r) :
    (∃ n log, t.default? c.state = some n ∧ reduceBy h t m n { c with log := log } = r) ∨
    t.default? c.state = none ∧ ∃ log ahead c₁ log', fetch h { c with log := log } = (.ok ahead, c₁) ∧
      act h t m ahead { c₁ with log := log' } = r := by
  obtain ⟨log, h₁⟩ := of_traced hr h'
  dsimp only at h₁
  split at h₁
  · rename_i n hn
    obtain ⟨log₂, h₂⟩ := of_traced hr h₁
    obtain ⟨log₃, h₃⟩ := of_traced hr h₂
    exact .inl ⟨n, log₃, hn, h₃⟩
  · rename_i hn
    split at h₁
    · subst h₁
      exact hr.elim
    · rename_i ahead c₁ hfetch
      obtain ⟨log₂, h₂⟩ := of_traced hr h₁
      exact .inr ⟨hn, log, ahead, c₁, log₂, hfetch, h₂⟩

lemma of_shift {s : StackSymbol S V} {target : Nat} (hr : r.Succeeds)
    (h : shift m s target c = r) : ∃ log, r = .running { c with
      log := log
      states := target :: c.states
      state := target
      symbols := s :: c.symbols
      lookahead := none
      errorCount := c.errorCount - 1 } := by
  obtain ⟨log, hlog⟩ := of_traced hr h
  exact ⟨log, hlog.symm⟩

lemma of_accept (hr : r.Succeeds) (h' : accept h m c = r) :
    ∃ top rest log, c.symbols = top :: rest ∧ r = .finished top.value { c with log := log } := by
  unfold accept at h'
  split at h'
  · subst h'
    exact hr.elim
  · rename_i top rest hsymbols
    obtain ⟨log, hlog⟩ := of_traced hr h'
    exact ⟨top, rest, log, hsymbols, hlog.symm⟩

lemma of_reduce {p : Production S} (hr : r.Succeeds) (h' : reduce h t m p c = r) :
    ∃ (reduction : Reduction S V) (reply : RuleReply S V E) (host : σ), reduction.production = p ∧
      reduction.arguments = (c.symbols.take p.symbols.length).reverse ∧ h.apply reduction c.host = (reply, host) ∧
      ((reply = .raised ∧ ∃ c', r = .running c' ∧ c'.host = host) ∨
      ∃ s recovered top below target log, reply = .done s recovered ∧ c.states.drop p.symbols.length = top :: below ∧
        t.goto? top p.name = some target ∧ r = .running { c with
          log := log
          host := host
          settled := c.settled || recovered
          states := target :: top :: below
          state := target
          symbols := s :: c.symbols.drop p.symbols.length }) := by
  obtain ⟨log, h₁⟩ := of_traced hr h'
  dsimp only at h₁
  split at h₁
  · subst h₁
    exact hr.elim
  · rename_i s hs
    refine ⟨⟨p, s, (c.symbols.take p.symbols.length).reverse, c.symbols.drop p.symbols.length⟩, _, _, rfl, rfl, rfl, ?_⟩
    split at h₁
    · subst h₁
      exact hr.elim
    · rename_i hreply
      left
      refine ⟨hreply, ?_⟩
      unfold backOut at h₁
      split at h₁
      · subst h₁
        exact hr.elim
      · subst h₁
        exact hr.elim
      · exact ⟨_, h₁.symm, rfl⟩
    · rename_i s' recovered hreply
      right
      obtain ⟨log₂, h₂⟩ := of_traced hr h₁
      unfold pushReduced gotoOf at h₂
      dsimp only at h₂
      cases hstates : c.states.drop p.symbols.length with
      | nil =>
        rw [hstates] at h₂
        subst h₂
        exact hr.elim
      | cons top below =>
        rw [hstates] at h₂
        cases hgoto : t.goto? top p.name with
        | none =>
          simp only [hgoto] at h₂
          subst h₂
          exact hr.elim
        | some target =>
          simp only [hgoto] at h₂
          exact ⟨s', recovered, top, below, target, log₂, hreply, rfl, hgoto, h₂.symm⟩

lemma fetch_log {log : String} {ahead : StackSymbol S V} (hfetch : fetch h { c with log := log } = (.ok ahead, c')) :
    fetch h c = (.ok ahead, { c' with log := c.log }) := by
  unfold fetch at hfetch ⊢
  rcases c with ⟨states, symbols, state, _ | s, _ | ⟨s, rest⟩, errorCount, settled, log', host⟩
  · rcases hnext : h.nextToken host with ⟨e | s, host'⟩
    · simp only [hnext] at hfetch
      cases hfetch
    · simp only [hnext] at hfetch ⊢
      obtain ⟨hs, rfl⟩ := Prod.mk.inj hfetch
      exact congrArg (·, _) hs
  · obtain ⟨hs, rfl⟩ := Prod.mk.inj hfetch
    exact congrArg (·, _) hs
  · obtain ⟨hs, rfl⟩ := Prod.mk.inj hfetch
    exact congrArg (·, _) hs
  · obtain ⟨hs, rfl⟩ := Prod.mk.inj hfetch
    exact congrArg (·, _) hs

end Inversion

end LispKit.Parser
