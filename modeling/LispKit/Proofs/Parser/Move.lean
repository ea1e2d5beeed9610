import LispKit.Proofs.Parser.Undisturbed

/-! The moves of a parser: all that one step can do and go on, recovery from errors included, and what holds in every
configuration that a run goes through. -/

namespace LispKit.Parser

open Vocabulary

variable {S V σ E : Type} [DecidableEq S] [Vocabulary S] {h : Host S V σ E} {t : Tables S} {m : Mode}
variable {c c' : Config S V σ} {ahead : StackSymbol S V} {p : Production S}

inductive Reduces (h : Host S V σ E) (t : Tables S) (m : Mode) (p : Production S) (c : Config S V σ) :
    Config S V σ → Prop
  | done {s s' : StackSymbol S V} {recovered : Bool} {host : σ} {top target : Nat} {below : List Nat} {log : String} :
      newSymbol h m p (c.symbols.take p.symbols.length).reverse c = .ok s →
      h.apply ⟨p, s, (c.symbols.take p.symbols.length).reverse, c.symbols.drop p.symbols.length⟩ c.host =
        (.done s' recovered, host) →
      c.states.drop p.symbols.length = top :: below → t.goto? top p.name = some target →
      Reduces h t m p c { c with
        log := log
        host := host
        settled := c.settled || recovered
        states := target :: top :: below
        state := target
        symbols := s' :: c.symbols.drop p.symbols.length }
  | raised {s : StackSymbol S V} {host : σ} {top state : Nat} {rest : List Nat} {log : String} :
      newSymbol h m p (c.symbols.take p.symbols.length).reverse c = .ok s →
      h.apply ⟨p, s, (c.symbols.take p.symbols.length).reverse, c.symbols.drop p.symbols.length⟩ c.host =
        (.raised, host) →
      c.states = top :: state :: rest →
      Reduces h t m p c { c with
        log := log
        host := host
        states := state :: rest
        state := state
        symbols := (c.symbols.take p.symbols.length).tail ++ c.symbols.drop p.symbols.length
        pushback := c.lookahead :: c.pushback
        lookahead := some { s with type := errorMark, value := some h.errorValue }
        errorCount := recoveryLength
        settled := false }

inductive Panics (h : Host S V σ E) (ahead : StackSymbol S V) (c : Config S V σ) : Config S V σ → Prop
  | wipe : c.states.length ≤ 1 → ahead.type ≠ endMark →
      Panics h ahead c { c with lookahead := none, state := 0, pushback := [] }
  | skip {top top' : StackSymbol S V} {rest : List (StackSymbol S V)} : 1 < c.states.length → ahead.type ≠ endMark →
      ahead.type ≠ errorMark → c.symbols = top :: rest → top.type = errorMark → top'.type = top.type →
      Panics h ahead c { c with symbols := top' :: rest, lookahead := none }
  | mark {top : StackSymbol S V} {rest : List (StackSymbol S V)} : 1 < c.states.length → ahead.type ≠ endMark →
      ahead.type ≠ errorMark → c.symbols = top :: rest → top.type ≠ errorMark →
      Panics h ahead c { c with lookahead := some (errorSymbol h ahead), pushback := some ahead :: c.pushback }
  | pop {top ahead' : StackSymbol S V} {rest : List (StackSymbol S V)} {q state : Nat} {more : List Nat} :
      ahead.type ≠ endMark → ahead.type = errorMark → c.symbols = top :: rest → c.states = q :: state :: more →
      ahead'.type = ahead.type → ahead'.value = ahead.value → ahead'.isToken = ahead.isToken →
      Panics h ahead c { c with symbols := rest, states := state :: more, state := state, lookahead := some ahead' }

inductive Heard (h : Host S V σ E) (ahead : StackSymbol S V) (host : σ) : ErrorReply S V → σ → Prop
  | unasked : Heard h ahead host {} host
  | asked {f : Option (StackSymbol S V) → σ → Except E (ErrorReply S V) × σ} {reply : ErrorReply S V} {host' : σ} :
      h.onError = some f → f (if ahead.type = endMark then none else some ahead) host = (.ok reply, host') →
      Heard h ahead host reply host'

def Config.alarmed (c : Config S V σ) (reply : ErrorReply S V) (host : σ) (settled : Bool) (log : String) :
    Config S V σ :=
  { c with
    host := host
    settled := settled
    log := log
    errorCount := recoveryLength
    states := if reply.restarted then [0] else c.states
    symbols := if reply.restarted then [.atEnd] else c.symbols }

inductive Recovers (h : Host S V σ E) (ahead : StackSymbol S V) (c : Config S V σ) : Config S V σ → Prop
  | panic {reply : ErrorReply S V} {host : σ} {settled : Bool} {log : String} {c' : Config S V σ} :
      Heard h ahead c.host reply host → reply.recovered = false → Panics h ahead (c.alarmed reply host settled log) c' →
      Recovers h ahead c c'
  | settled {reply : ErrorReply S V} {host : σ} {log : String} : Heard h ahead c.host reply host →
      reply.recovered = true → Recovers h ahead c { c.alarmed reply host true log with lookahead := reply.token }

inductive Moves (h : Host S V σ E) (t : Tables S) (m : Mode) (c : Config S V σ) : Config S V σ → Prop
  | default {n : Nat} {p : Production S} {log : String} {c' : Config S V σ} : t.default? c.state = some n →
      t.productions[n]? = some p → Reduces h t m p { c with log := log } c' → Moves h t m c c'
  | shift {ahead : StackSymbol S V} {c₁ : Config S V σ} {target : Nat} (log : String) : t.default? c.state = none →
      fetch h c = (.ok ahead, c₁) → t.action? c.state ahead.type = some (.shift target) →
      Moves h t m c { c₁ with
        log := log
        states := target :: c₁.states
        state := target
        symbols := ahead :: c₁.symbols
        lookahead := none
        errorCount := c₁.errorCount - 1 }
  | reduce {ahead : StackSymbol S V} {c₁ c' : Config S V σ} {n : Nat} {p : Production S} {log : String} :
      t.default? c.state = none → fetch h c = (.ok ahead, c₁) → t.action? c.state ahead.type = some (.reduce n) →
      t.productions[n]? = some p → Reduces h t m p { c₁ with log := log } c' → Moves h t m c c'
  | recover {ahead : StackSymbol S V} {c₁ c' : Config S V σ} {log : String} : t.default? c.state = none →
      fetch h c = (.ok ahead, c₁) → t.action? c.state ahead.type = none →
      Recovers h ahead { c₁ with log := log } c' → Moves h t m c c'

section Inversion

omit [DecidableEq S] [Vocabulary S] in
lemma of_newSymbol {arguments : List (StackSymbol S V)} {s : StackSymbol S V}
    (hs : newSymbol h m p arguments c = .ok s) : s.type = p.name ∧ s.isToken = false := by
  unfold newSymbol at hs
  dsimp only at hs
  split_ifs at hs
  · obtain rfl := Except.ok.inj hs
    exact ⟨rfl, rfl⟩
  · split at hs
    · rename_i first last _ _
      unfold StackSymbol.spanning at hs
      rcases hline : first.getLine with _ | line <;> rw [hline] at hs
      · cases hs
      rcases hposition : first.getPosition with _ | position <;> rw [hposition] at hs
      · cases hs
      rcases hlast : last.getLine with _ | lastLine <;> rw [hlast] at hs
      · cases hs
      rcases hend : last.getPosition with _ | lastPosition <;> rw [hend] at hs
      · cases hs
      obtain rfl := Except.ok.inj hs
      exact ⟨rfl, rfl⟩
    · cases hs
  · obtain rfl := Except.ok.inj hs
    exact ⟨rfl, rfl⟩

omit [DecidableEq S] [Vocabulary S] in
lemma type_extendedTo {s token s' : StackSymbol S V} (hs : s.extendedTo token = .ok s') : s'.type = s.type := by
  unfold StackSymbol.extendedTo at hs
  rcases hline : s.getLine with _ | line <;> rw [hline] at hs
  · cases hs
  rcases hposition : s.getPosition with _ | position <;> rw [hposition] at hs
  · cases hs
  obtain rfl := Except.ok.inj hs
  rfl

omit [DecidableEq S] [Vocabulary S] in
lemma of_placedAt {s other s' : StackSymbol S V} (hs : s.placedAt other = .ok s') :
    s'.type = s.type ∧ s'.value = s.value ∧ s'.isToken = s.isToken := by
  unfold StackSymbol.placedAt at hs
  rcases hline : other.getLine with _ | line <;> rw [hline] at hs
  · cases hs
  rcases hposition : other.getPosition with _ | position <;> rw [hposition] at hs
  · cases hs
  obtain rfl := Except.ok.inj hs
  exact ⟨rfl, rfl, rfl⟩

lemma reduces_of_reduce (hreduce : reduce h t m p c = .running c') : Reduces h t m p c c' := by
  obtain ⟨log, h₁⟩ := of_traced (r := .running c') trivial hreduce
  dsimp only at h₁
  split at h₁
  · cases h₁
  · rename_i s hs
    rcases happly : h.apply ⟨p, s, (c.symbols.take p.symbols.length).reverse, c.symbols.drop p.symbols.length⟩ c.host
      with ⟨reply, host⟩
    simp only [happly] at h₁
    cases reply with
    | failed e => cases h₁
    | raised =>
      simp only [backOut] at h₁
      split at h₁
      · cases h₁
      · cases h₁
      · rename_i top state rest hstates
        obtain rfl := Progress.running.inj h₁
        have hsymbols : (c.symbols.take p.symbols.length).reverse.dropLast.reverse =
            (c.symbols.take p.symbols.length).tail := by
          rw [List.dropLast_reverse, List.reverse_reverse]
        rw [hsymbols]
        exact .raised hs happly hstates
    | done s' recovered =>
      obtain ⟨log', h₂⟩ := of_traced (r := .running c') trivial h₁
      simp only [pushReduced, gotoOf] at h₂
      cases hstates : c.states.drop p.symbols.length with
      | nil =>
        rw [hstates] at h₂
        cases h₂
      | cons top below =>
        rw [hstates] at h₂
        cases hgoto : t.goto? top p.name with
        | none =>
          simp only [hgoto] at h₂
          cases h₂
        | some target =>
          simp only [hgoto] at h₂
          obtain rfl := Progress.running.inj h₂
          exact .done hs happly hstates hgoto

lemma panics_of_panicStep (hpanic : panicStep h m ahead c = .running c') : Panics h ahead c c' := by
  unfold panicStep at hpanic
  split at hpanic
  · rename_i hone
    simp only [Bool.and_eq_true, decide_eq_true_eq, bne_iff_ne] at hone
    obtain rfl := Progress.running.inj hpanic
    exact .wipe hone.1 hone.2
  · rename_i hmore
    split at hpanic
    · cases hpanic
    · rename_i hend
      have hlength : 1 < c.states.length := by
        by_contra hle
        apply hmore
        simp only [Bool.and_eq_true, decide_eq_true_eq, bne_iff_ne]
        exact ⟨Nat.not_lt.mp hle, hend⟩
      split at hpanic
      · rename_i herror
        split at hpanic
        · cases hpanic
        · rename_i top rest hsymbols
          split at hpanic
          · rename_i htop
            split at hpanic
            · cases hpanic
            · rename_i top' htop'
              obtain rfl := Progress.running.inj hpanic
              refine .skip hlength hend herror hsymbols htop ?_
              split at htop'
              · exact type_extendedTo htop'
              · rw [Except.ok.inj htop']
          · rename_i htop
            obtain rfl := Progress.running.inj hpanic
            exact .mark hlength hend herror hsymbols htop
      · rename_i herror
        split at hpanic
        · cases hpanic
        · rename_i top rest hsymbols
          split at hpanic
          · cases hpanic
          · rename_i ahead' hahead
            split at hpanic
            · cases hpanic
            · cases hpanic
            · rename_i q state more hstates
              obtain rfl := Progress.running.inj hpanic
              have hsame : ahead'.type = ahead.type ∧ ahead'.value = ahead.value ∧ ahead'.isToken = ahead.isToken := by
                split at hahead
                · exact of_placedAt hahead
                · rw [Except.ok.inj hahead]
                  exact ⟨rfl, rfl, rfl⟩
              exact .pop hend (not_not.mp herror) hsymbols hstates hsame.1 hsame.2.1 hsame.2.2

lemma recovers_of_report (hreport : report h m ahead c = .running c') : Recovers h ahead c c' := by
  unfold report at hreport
  dsimp only at hreport
  split at hreport
  · rename_i f hf
    split at hreport
    · cases hreport
    · rename_i reply host hreply
      have hheard : Heard h ahead c.host reply host := .asked hf hreply
      rcases reply with ⟨token, _ | _, _ | _⟩
      · have hpanics : Panics h ahead (c.alarmed ⟨token, false, false⟩ host false c.log) c' := panics_of_panicStep hreport
        exact .panic hheard rfl hpanics
      · have hpanics : Panics h ahead (c.alarmed ⟨token, false, true⟩ host false c.log) c' := panics_of_panicStep hreport
        exact .panic hheard rfl hpanics
      · obtain rfl := Progress.running.inj hreport
        exact .settled hheard rfl
      · obtain rfl := Progress.running.inj hreport
        exact .settled hheard rfl
  · split at hreport
    · cases hreport
    · rename_i s _
      have hpanics : Panics h ahead (c.alarmed {} c.host false (c.log ++ complaint s)) c' := panics_of_panicStep hreport
      exact .panic .unasked rfl hpanics

lemma recovers_of_recover (hrecover : recover h m ahead c = .running c') : Recovers h ahead c c' := by
  obtain ⟨log, h₁⟩ := of_traced (r := .running c') trivial hrecover
  dsimp only at h₁
  split at h₁
  · cases recovers_of_report h₁ with
    | panic hheard hrecovered hpanics => exact .panic hheard hrecovered hpanics
    | settled hheard hrecovered => exact .settled hheard hrecovered
  · have hpanics : Panics h ahead (c.alarmed {} c.host c.settled log) c' := panics_of_panicStep h₁
    exact .panic .unasked rfl hpanics

lemma reduces_of_reduceBy {n : Nat} (hreduce : reduceBy h t m n c = .running c') :
    ∃ p, t.productions[n]? = some p ∧ Reduces h t m p c c' := by
  unfold reduceBy at hreduce
  split at hreduce
  · cases hreduce
  · rename_i p hp
    exact ⟨p, hp, reduces_of_reduce hreduce⟩

omit [DecidableEq S] in
lemma of_fetch (hfetch : fetch h c = (.ok ahead, c')) :
    (c.lookahead = some ahead ∧ c' = c) ∨
    (c.lookahead = none ∧ ∃ s rest, c.pushback = s :: rest ∧ ahead = s.getD .atEnd ∧
      c' = { c with lookahead := some ahead, pushback := rest }) ∨
    c.lookahead = none ∧ c.pushback = [] ∧ ∃ s host, h.nextToken c.host = (.ok s, host) ∧ ahead = s.getD .atEnd ∧
      c' = { c with lookahead := some ahead, host := host } := by
  unfold fetch at hfetch
  cases hl : c.lookahead with
  | some s =>
    simp only [hl] at hfetch
    obtain ⟨hs, rfl⟩ := Prod.mk.inj hfetch
    exact .inl ⟨congrArg some (Except.ok.inj hs), rfl⟩
  | none =>
    cases hp : c.pushback with
    | cons s rest =>
      simp only [hl, hp] at hfetch
      obtain ⟨hs, rfl⟩ := Prod.mk.inj hfetch
      obtain rfl := Except.ok.inj hs
      exact .inr (.inl ⟨rfl, s, rest, rfl, rfl, rfl⟩)
    | nil =>
      rcases hnext : h.nextToken c.host with ⟨e | s, host⟩
      · simp only [hl, hp, hnext] at hfetch
        cases hfetch
      · simp only [hl, hp, hnext] at hfetch
        obtain ⟨hs, rfl⟩ := Prod.mk.inj hfetch
        obtain rfl := Except.ok.inj hs
        exact .inr (.inr ⟨rfl, rfl, s, host, rfl, rfl, rfl⟩)

omit [DecidableEq S] in
lemma fetch_stacks (hfetch : fetch h c = (.ok ahead, c')) : c'.states = c.states ∧ c'.symbols = c.symbols ∧
    c'.state = c.state ∧ c'.lookahead = some ahead := by
  rcases of_fetch hfetch with ⟨hl, rfl⟩ | ⟨-, s, rest, -, -, rfl⟩ | ⟨-, -, s, host, -, -, rfl⟩
  · exact ⟨rfl, rfl, rfl, hl⟩
  · exact ⟨rfl, rfl, rfl, rfl⟩
  · exact ⟨rfl, rfl, rfl, rfl⟩

theorem moves_of_step (hstep : step h t m c = .running c') : Moves h t m c c' := by
  rcases of_step (r := .running c') trivial hstep with ⟨n, log, hd, hreduce⟩ | ⟨hd, log, ahead, c₁, log', hfetch, hact⟩
  · obtain ⟨p, hp, hreduces⟩ := reduces_of_reduceBy hreduce
    exact .default hd hp hreduces
  · have hfetch' := fetch_log hfetch
    have hstate : c₁.state = c.state := (fetch_stacks hfetch).2.2.1
    unfold act at hact
    dsimp only at hact
    cases ha : t.action? c₁.state ahead.type with
    | none =>
      simp only [ha] at hact
      exact .recover hd hfetch' (hstate ▸ ha) (recovers_of_recover hact)
    | some a =>
      simp only [ha] at hact
      cases a with
      | shift target =>
        obtain ⟨log'', hc'⟩ := of_shift (r := .running c') trivial hact
        obtain rfl := Progress.running.inj hc'
        have hmove := Moves.shift (m := m) log'' hd hfetch' (hstate ▸ ha)
        exact hmove
      | reduce n =>
        obtain ⟨p, hp, hreduces⟩ := reduces_of_reduceBy hact
        exact .reduce hd hfetch' (hstate ▸ ha) hp hreduces
      | accept =>
        obtain ⟨top, rest, log'', -, hc'⟩ := of_accept (r := .running c') trivial hact
        cases hc'

end Inversion

section Reached

lemma run_succ {n : Nat} : run h t m (n + 1) c = .running c' ↔
    ∃ c₁, run h t m n c = .running c₁ ∧ step h t m c₁ = .running c' := by
  induction n generalizing c with
  | zero =>
    rw [run]
    cases hstep : step h t m c with
    | running c₁ => simp [run, hstep]
    | finished v c₁ => simp [run, hstep]
    | failed e c₁ => simp [run, hstep]
  | succ n ih =>
    rw [run]
    cases hstep : step h t m c with
    | running c₁ =>
      dsimp only
      rw [ih, run, hstep]
    | finished v c₁ => simp [run, hstep]
    | failed e c₁ => simp [run, hstep]

lemma parse_succ {n : Nat} {settled : Bool} {host : σ} : parse h t m (n + 1) settled host = .running c' ↔
    ∃ c, parse h t m n settled host = .running c ∧ step h t m c = .running c' := by
  obtain ⟨log, hlog⟩ := exists_run h t m settled host
  rw [hlog, hlog]
  exact run_succ

theorem parse_invariant {P : Config S V σ → Prop} {settled : Bool} {host : σ}
    (hstart : ∀ log, P { Config.start host settled with log := log })
    (hmove : ∀ {n c c'}, parse h t m n settled host = .running c → parse h t m (n + 1) settled host = .running c' →
      P c → Moves h t m c c' → P c')
    {n : Nat} (hparse : parse h t m n settled host = .running c) : P c := by
  induction n generalizing c with
  | zero =>
    obtain ⟨log, hlog⟩ := exists_run h t m settled host
    rw [hlog] at hparse
    obtain rfl := Progress.running.inj hparse
    exact hstart log
  | succ n ih =>
    obtain ⟨c₁, hparse₁, hstep⟩ := parse_succ.mp hparse
    exact hmove hparse₁ hparse (ih hparse₁) (moves_of_step hstep)

end Reached

end LispKit.Parser
