import LispKit.Proofs.Parser.Aligned

/-! What becomes of the tokens: each one that is obtained is shifted or discarded once, before the next one is obtained.
The end of the input is taken to be there too early only where nothing had been read ahead. -/

namespace LispKit.Parser

open Vocabulary List Option

variable {S V σ E : Type} [DecidableEq S] [Vocabulary S] {h : Host S V σ E} {t : Tables S} {m : Mode}
variable {c c' c₁ : Config S V σ} {ahead : StackSymbol S V} {p : Production S}

def StackSymbol.unplaced (s : StackSymbol S V) : StackSymbol S V :=
  { s with line := none, position := none, endLine := none, endPosition := none }

inductive TokenEvent (S V : Type) where
  | obtained (token : Option (StackSymbol S V))
  | ended
  | shifted (token : StackSymbol S V)
  | discarded (token : StackSymbol S V)

namespace TokenEvent

def isOfToken : TokenEvent S V → Bool
  | obtained none => false
  | ended => false
  | _ => true

end TokenEvent

open TokenEvent

def Config.queue (c : Config S V σ) : List (Option (StackSymbol S V)) :=
  c.lookahead :: c.pushback

def tokensIn (queue : List (Option (StackSymbol S V))) : List (StackSymbol S V) :=
  ((queue.filterMap id).filter fun s => s.isToken).map StackSymbol.unplaced

def endingWith (s : StackSymbol S V) : List (TokenEvent S V) :=
  if s.type = endMark then [.ended] else []

def received (h : Host S V σ E) (t : Tables S) (c : Config S V σ) : List (TokenEvent S V) :=
  match t.default? c.state, c.lookahead, c.pushback with
  | none, none, s :: _ => endingWith (s.getD .atEnd)
  | none, none, [] =>
    match (h.nextToken c.host).1 with
    | .error _ => []
    | .ok s => .obtained (s.map StackSymbol.unplaced) :: endingWith (s.getD .atEnd)
  | _, _, _ => []

def departing (t : Tables S) (ahead : StackSymbol S V) (c : Config S V σ) : List (TokenEvent S V) :=
  match t.action? c.state ahead.type with
  | some (.shift _) => (tokensIn [some ahead]).map .shifted
  | some _ => []
  | none =>
    if c.states.length ≤ 1 then (tokensIn c.queue).map .discarded
    else if ahead.type ≠ errorMark ∧ c.symbols.head?.map StackSymbol.type = some errorMark then
      (tokensIn [some ahead]).map .discarded
    else []

def departed (h : Host S V σ E) (t : Tables S) (c : Config S V σ) : List (TokenEvent S V) :=
  match t.default? c.state, fetch h c with
  | none, (.ok ahead, c) => departing t ahead c
  | _, _ => []

def Progress.isRunning : Progress S V σ E → Bool
  | .running _ => true
  | _ => false

/-- What a step does with tokens; the last one only reads. -/
def eventsOf (h : Host S V σ E) (t : Tables S) (m : Mode) (c : Config S V σ) : List (TokenEvent S V) :=
  received h t c ++ if (step h t m c).isRunning then departed h t c else []

def trace (h : Host S V σ E) (t : Tables S) (m : Mode) (settled : Bool) (host : σ) (n : Nat) : List (TokenEvent S V) :=
  (List.range n).flatMap fun k =>
    match parse h t m k settled host with
    | .running c => eventsOf h t m c
    | _ => []

inductive Fate where
  | shifted
  | discarded

def Fate.event : Fate → StackSymbol S V → TokenEvent S V
  | shifted => .shifted
  | discarded => .discarded

/-- The events of tokens that have met their fates one after the other, and of one that may still be at hand. -/
def lives (fates : List (StackSymbol S V × Fate)) (pending : Option (StackSymbol S V)) : List (TokenEvent S V) :=
  fates.flatMap (fun x => [.obtained (some x.1), x.2.event x.1]) ++ pending.toList.map fun s => .obtained (some s)

def EndsLate (events : List (TokenEvent S V)) : Prop :=
  ∀ before after, events = before ++ .ended :: after → .obtained none ∈ before

/-- The next step takes something else for the end of the input: that nothing was at hand when a rule asked for recovery,
or a token of the type of the end. -/
def Misreads (h : Host S V σ E) (t : Tables S) (c : Config S V σ) : Prop :=
  t.default? c.state = none ∧ c.lookahead = none ∧ (c.pushback.head? = some none ∨
    c.pushback = [] ∧ ∃ token host, h.nextToken c.host = (.ok (some token), host) ∧ token.type = endMark)

/-- The next step reduces without having read ahead, and the rule asks for recovery. -/
def RaisesUnread (h : Host S V σ E) (t : Tables S) (m : Mode) (c : Config S V σ) : Prop :=
  c.lookahead = none ∧ ∃ n p s host, t.default? c.state = some n ∧ t.productions[n]? = some p ∧
    newSymbol h m p (c.symbols.take p.symbols.length).reverse c = .ok s ∧
    h.apply ⟨p, s, (c.symbols.take p.symbols.length).reverse, c.symbols.drop p.symbols.length⟩ c.host = (.raised, host)

def Gives (h : Host S V σ E) (t : Tables S) (m : Mode) (settled : Bool) (host : σ) (token : StackSymbol S V) : Prop :=
  ∃ n c host', parse h t m n settled host = .running c ∧ h.nextToken c.host = (.ok (some token), host')

structure Host.LeavesRecovery (h : Host S V σ E) : Prop where
  reply : ∀ {f offending s reply s'}, h.onError = some f → f offending s = (.ok reply, s') →
    reply.recovered = false ∧ reply.restarted = false

section Queue

omit [DecidableEq S] [Vocabulary S] in
lemma tokensIn_cons_none (queue : List (Option (StackSymbol S V))) : tokensIn (none :: queue) = tokensIn queue := rfl

variable {s : StackSymbol S V}

omit [DecidableEq S] [Vocabulary S] in
lemma tokensIn_of_not_isToken (hs : s.isToken = false) (queue : List (Option (StackSymbol S V))) :
    tokensIn (some s :: queue) = tokensIn queue := by
  simp [tokensIn, hs]

omit [DecidableEq S] [Vocabulary S] in
lemma tokensIn_of_isToken (hs : s.isToken = true) (queue : List (Option (StackSymbol S V))) :
    tokensIn (some s :: queue) = s.unplaced :: tokensIn queue := by
  simp [tokensIn, hs]

inductive Passes (ahead : StackSymbol S V) (pushback : List (Option (StackSymbol S V))) :
    List (Option (StackSymbol S V)) → List (TokenEvent S V) → Prop
  | kept : Passes ahead pushback (some ahead :: pushback) []
  | preceded {s : StackSymbol S V} : s.type = errorMark → s.isToken = false →
      Passes ahead pushback (some s :: some ahead :: pushback) []
  | moved {ahead' : StackSymbol S V} : ahead'.type = errorMark → ahead'.isToken = ahead.isToken →
      ahead'.unplaced = ahead.unplaced → Passes ahead pushback (some ahead' :: pushback) []
  | left (fate : Fate) : Passes ahead pushback (none :: pushback) ((tokensIn [some ahead]).map fate.event)
  | wiped : Passes ahead pushback [none] ((tokensIn (some ahead :: pushback)).map (Fate.event .discarded))

lemma Reduces.queue (hreduces : Reduces h t m p c c') : c'.queue = c.queue ∨
    ∃ s : StackSymbol S V, s.type = errorMark ∧ s.isToken = false ∧ c'.queue = some s :: c.queue := by
  cases hreduces with
  | done => exact .inl rfl
  | @raised s _ _ _ _ _ hs =>
    exact .inr ⟨{ s with type := errorMark, value := some h.errorValue }, rfl, (of_newSymbol hs).2, rfl⟩

lemma Panics.passes (hpanics : Panics h ahead c c') (hl : c.lookahead = some ahead)
    (ha : t.action? c.state ahead.type = none) : Passes ahead c.pushback c'.queue (departing t ahead c) := by
  unfold departing
  rw [ha]
  dsimp only
  cases hpanics with
  | wipe hlength _ =>
    rw [if_pos hlength, Config.queue, Config.queue, hl]
    exact .wiped
  | skip hlength _ herror hsymbols htop _ =>
    rw [if_neg (Nat.not_le.mpr hlength), if_pos ⟨herror, by rw [hsymbols]; exact congrArg some htop⟩]
    exact .left .discarded
  | mark hlength _ _ hsymbols htop =>
    rw [if_neg (Nat.not_le.mpr hlength), if_neg]
    · exact .preceded rfl rfl
    · rintro ⟨-, htop'⟩
      rw [hsymbols] at htop'
      exact htop (Option.some.inj htop')
  | pop _ herror hsymbols hstates htype hvalue htoken =>
    have hlength : ¬ c.states.length ≤ 1 := by
      rw [hstates]
      simp
    rw [if_neg hlength, if_neg fun hne => hne.1 herror]
    refine .moved (htype.trans herror) htoken ?_
    simp [StackSymbol.unplaced, htype, hvalue, htoken]

lemma Host.LeavesRecovery.heard (hreply : h.LeavesRecovery) {host host' : σ} {reply : ErrorReply S V}
    (hheard : Heard h ahead host reply host') : reply.recovered = false ∧ reply.restarted = false := by
  cases hheard with
  | unasked => exact ⟨rfl, rfl⟩
  | asked hf hf' => exact hreply.reply hf hf'

lemma Recovers.passes (hreply : h.LeavesRecovery) (hrecovers : Recovers h ahead c c') (hl : c.lookahead = some ahead)
    (ha : t.action? c.state ahead.type = none) : Passes ahead c.pushback c'.queue (departing t ahead c) := by
  cases hrecovers with
  | @panic reply host settled log c' hheard _ hpanics =>
    have hpasses := hpanics.passes hl ha
    have hsame : departing t ahead (c.alarmed reply host settled log) = departing t ahead c := by
      rw [Config.alarmed, (hreply.heard hheard).2]
      rfl
    rwa [hsame] at hpasses
  | settled hheard hrecovered =>
    rw [(hreply.heard hheard).1] at hrecovered
    cases hrecovered

lemma Moves.passes (hreply : h.LeavesRecovery) (hmoves : Moves h t m c c') :
    (t.default? c.state ≠ none ∧ (c'.queue = c.queue ∨
      ∃ s : StackSymbol S V, s.type = errorMark ∧ s.isToken = false ∧ c'.queue = some s :: c.queue)) ∨
    t.default? c.state = none ∧ ∃ ahead c₁, fetch h c = (.ok ahead, c₁) ∧
      Passes ahead c₁.pushback c'.queue (departed h t c) := by
  have hdeparted : ∀ {ahead c₁}, t.default? c.state = none → fetch h c = (.ok ahead, c₁) →
      departed h t c = departing t ahead c₁ := by
    intro ahead c₁ hd hfetch
    simp [departed, hd, hfetch]
  cases hmoves with
  | default hd hp hreduces =>
    left
    exact ⟨by simp [hd], hreduces.queue⟩
  | @shift ahead c₁ target log hd hfetch ha =>
    right
    refine ⟨hd, _, _, hfetch, ?_⟩
    obtain ⟨-, -, hstate, -⟩ := fetch_stacks hfetch
    rw [hdeparted hd hfetch, departing, hstate, ha]
    exact .left .shifted
  | @reduce ahead c₁ c' n p log hd hfetch ha hp hreduces =>
    right
    refine ⟨hd, _, _, hfetch, ?_⟩
    obtain ⟨-, -, hstate, hl⟩ := fetch_stacks hfetch
    rw [hdeparted hd hfetch, departing, hstate, ha]
    have hqueue : ({ c₁ with log := log } : Config S V σ).queue = some ahead :: c₁.pushback := by
      rw [Config.queue, hl]
    rcases hreduces.queue with hkept | ⟨s, htype, htoken, hraised⟩
    · rw [hkept, hqueue]
      exact .kept
    · rw [hraised, hqueue]
      exact .preceded htype htoken
  | @recover ahead c₁ c' log hd hfetch ha hrecovers =>
    right
    refine ⟨hd, _, _, hfetch, ?_⟩
    obtain ⟨-, -, hstate, hl⟩ := fetch_stacks hfetch
    rw [hdeparted hd hfetch]
    have hpasses := hrecovers.passes hreply hl (hstate.symm ▸ ha)
    exact hpasses

end Queue

section Trace

variable {settled : Bool} {host : σ} {n : Nat} {fates : List (StackSymbol S V × Fate)} {pending : Option (StackSymbol S V)}

lemma trace_succ (h : Host S V σ E) (t : Tables S) (m : Mode) (settled : Bool) (host : σ) (n : Nat) :
    trace h t m settled host (n + 1) = trace h t m settled host n ++
      match parse h t m n settled host with
      | .running c => eventsOf h t m c
      | _ => [] := by
  rw [trace, range_succ, flatMap_append, flatMap_singleton]
  rfl

lemma trace_of_running (hparse : parse h t m n settled host = .running c) (hstep : step h t m c = .running c') :
    trace h t m settled host (n + 1) = trace h t m settled host n ++ (received h t c ++ departed h t c) := by
  rw [trace_succ, hparse]
  simp [eventsOf, hstep, Progress.isRunning]

omit [DecidableEq S] [Vocabulary S] in
lemma lives_obtained (fates : List (StackSymbol S V × Fate)) (s : StackSymbol S V) :
    lives fates none ++ [.obtained (some s)] = lives fates (some s) := by
  simp [lives]

omit [DecidableEq S] [Vocabulary S] in
lemma lives_left (fates : List (StackSymbol S V × Fate)) (s : StackSymbol S V) (fate : Fate) :
    lives fates (some s) ++ [fate.event s] = lives (fates ++ [(s, fate)]) none := by
  simp [lives]

lemma filter_endingWith (s : StackSymbol S V) : (endingWith s).filter isOfToken = [] := by
  unfold endingWith
  split <;> rfl

omit [DecidableEq S] [Vocabulary S] in
lemma filter_map_event (fate : Fate) (ss : List (StackSymbol S V)) :
    (ss.map fate.event).filter isOfToken = ss.map fate.event := by
  rw [filter_eq_self]
  intro e he
  obtain ⟨s, -, rfl⟩ := mem_map.mp he
  cases fate <;> rfl

lemma lives_received (hmarked : ∀ {token host}, h.nextToken c.host = (.ok (some token), host) → token.isToken = true)
    (hpending : tokensIn c.queue = pending.toList)
    (hd : t.default? c.state = none) (hfetch : fetch h c = (.ok ahead, c₁)) (fates : List (StackSymbol S V × Fate)) :
    ∃ pending', lives fates pending ++ (received h t c).filter isOfToken = lives fates pending' ∧
      tokensIn (some ahead :: c₁.pushback) = pending'.toList := by
  rcases of_fetch hfetch with ⟨hl, rfl⟩ | ⟨hl, s, rest, hp, rfl, rfl⟩ | ⟨hl, hp, s, host, hnext, rfl, rfl⟩
  · refine ⟨pending, ?_, by rwa [Config.queue, hl] at hpending⟩
    simp [received, hd, hl]
  · refine ⟨pending, ?_, ?_⟩
    · simp [received, hd, hl, hp, filter_endingWith]
    · rw [Config.queue, hl, hp, tokensIn_cons_none] at hpending
      cases s with
      | none => exact hpending
      | some s => exact hpending
  · rw [Config.queue, hl, hp] at hpending
    obtain rfl : pending = none := by
      cases pending with
      | none => rfl
      | some s => cases hpending
    dsimp only
    rw [hp]
    cases s with
    | none =>
      refine ⟨none, ?_, rfl⟩
      have hreceived : received h t c = .obtained none :: endingWith .atEnd := by
        simp [received, hd, hl, hp, hnext]
      rw [hreceived, filter_cons_of_neg Bool.false_ne_true, filter_endingWith, append_nil]
    | some token =>
      refine ⟨some token.unplaced, ?_, tokensIn_of_isToken (hmarked hnext) []⟩
      have hreceived : received h t c = .obtained (some token.unplaced) :: endingWith token := by
        simp [received, hd, hl, hp, hnext]
      rw [hreceived, filter_cons_of_pos rfl, filter_endingWith, lives_obtained]

lemma received_of_fetch_error {e : E} (hfetch : fetch h c = (.error e, c₁)) : received h t c = [] := by
  unfold fetch at hfetch
  unfold received
  cases hd : t.default? c.state with
  | some k => rfl
  | none =>
    cases hl : c.lookahead with
    | some s => rfl
    | none =>
      cases hp : c.pushback with
      | cons s rest =>
        simp only [hl, hp] at hfetch
        cases hfetch
      | nil =>
        rcases hnext : h.nextToken c.host with ⟨e | s, host⟩
        · rfl
        · simp only [hl, hp, hnext] at hfetch
          cases hfetch

lemma lives_last (hmarked : ∀ {token host}, h.nextToken c.host = (.ok (some token), host) → token.isToken = true)
    (hpending : tokensIn c.queue = pending.toList) (fates : List (StackSymbol S V × Fate))
    (hlast : (step h t m c).isRunning = false) :
    ∃ pending', lives fates pending ++ (eventsOf h t m c).filter isOfToken = lives fates pending' := by
  rw [eventsOf, hlast, if_neg Bool.false_ne_true, append_nil]
  cases hd : t.default? c.state with
  | some k => exact ⟨pending, by simp [received, hd]⟩
  | none =>
    rcases hfetch : fetch h c with ⟨e | ahead, c₁⟩
    · exact ⟨pending, by simp [received_of_fetch_error hfetch]⟩
    · obtain ⟨pending', hlives, -⟩ := lives_received hmarked hpending hd hfetch fates
      exact ⟨pending', hlives⟩

omit [DecidableEq S] in
lemma Passes.lives_departed {queue pushback : List (Option (StackSymbol S V))} {events : List (TokenEvent S V)}
    (hpasses : Passes ahead pushback queue events) (hpending : tokensIn (some ahead :: pushback) = pending.toList) :
    ∃ fates' pending', lives fates pending ++ events.filter isOfToken = lives fates' pending' ∧
      tokensIn queue = pending'.toList := by
  cases hpasses with
  | kept => exact ⟨fates, pending, by simp, hpending⟩
  | preceded htype htoken => exact ⟨fates, pending, by simp, (tokensIn_of_not_isToken htoken _).trans hpending⟩
  | moved htype htoken hplace =>
    refine ⟨fates, pending, by simp, ?_⟩
    rw [← hpending]
    cases hi : ahead.isToken with
    | false => rw [tokensIn_of_not_isToken hi, tokensIn_of_not_isToken (htoken.trans hi)]
    | true => rw [tokensIn_of_isToken hi, tokensIn_of_isToken (htoken.trans hi), hplace]
  | left fate =>
    rw [filter_map_event]
    cases htoken : ahead.isToken with
    | false =>
      rw [tokensIn_of_not_isToken htoken] at hpending ⊢
      exact ⟨fates, pending, by simp [tokensIn], hpending⟩
    | true =>
      rw [tokensIn_of_isToken htoken] at hpending ⊢
      cases pending with
      | none => cases hpending
      | some s =>
        obtain ⟨rfl, hrest⟩ := List.cons.inj hpending
        exact ⟨fates ++ [(_, fate)], none, lives_left fates _ fate, hrest⟩
  | wiped =>
    rw [hpending, filter_map_event]
    cases pending with
    | none => exact ⟨fates, none, by simp, rfl⟩
    | some s => exact ⟨fates ++ [(s, Fate.discarded)], none, lives_left fates s .discarded, rfl⟩

lemma exists_lives (hmarked : ∀ token, Gives h t m settled host token → token.isToken = true) (hreply : h.LeavesRecovery)
    (hparse : parse h t m n settled host = .running c) : ∃ fates pending,
      (trace h t m settled host n).filter isOfToken = lives fates pending ∧ tokensIn c.queue = pending.toList := by
  induction n generalizing c with
  | zero =>
    obtain ⟨log, hlog⟩ := exists_run h t m settled host
    rw [hlog] at hparse
    obtain rfl := Progress.running.inj hparse
    exact ⟨[], none, rfl, rfl⟩
  | succ n ih =>
    obtain ⟨c₀, hparse₀, hstep⟩ := parse_succ.mp hparse
    obtain ⟨fates, pending, hlives, hpending⟩ := ih hparse₀
    rw [trace_of_running hparse₀ hstep, filter_append, filter_append, ← append_assoc, hlives]
    rcases (moves_of_step hstep).passes hreply with ⟨hd, hqueue⟩ | ⟨hd, ahead, c₁, hfetch, hpasses⟩
    · have hnone : received h t c₀ = [] ∧ departed h t c₀ = [] := by
        obtain ⟨k, hk⟩ := ne_none_iff_exists'.mp hd
        simp [received, departed, hk]
      rw [hnone.1, hnone.2]
      refine ⟨fates, pending, by simp, ?_⟩
      rcases hqueue with hkept | ⟨s, -, htoken, hraised⟩
      · rw [hkept, hpending]
      · rw [hraised, tokensIn_of_not_isToken htoken, hpending]
    · have hmarked₀ : ∀ {token host'}, h.nextToken c₀.host = (.ok (some token), host') → token.isToken = true :=
        fun hnext => hmarked _ ⟨n, c₀, _, hparse₀, hnext⟩
      obtain ⟨pending', hreceived, hpending'⟩ := lives_received hmarked₀ hpending hd hfetch fates
      rw [hreceived]
      exact hpasses.lives_departed hpending'

lemma exists_lives_trace (hmarked : ∀ token, Gives h t m settled host token → token.isToken = true)
    (hreply : h.LeavesRecovery) (n : Nat) :
    ∃ fates pending, (trace h t m settled host n).filter isOfToken = lives fates pending := by
  induction n with
  | zero => exact ⟨[], none, rfl⟩
  | succ n ih =>
    cases hparse : parse h t m n settled host with
    | finished v c => simpa [trace_succ, hparse] using ih
    | failed e c => simpa [trace_succ, hparse] using ih
    | running c =>
      obtain ⟨fates, pending, hlives, hpending⟩ := exists_lives hmarked hreply hparse
      have hmarked' : ∀ {token host'}, h.nextToken c.host = (.ok (some token), host') → token.isToken = true :=
        fun hnext => hmarked _ ⟨n, c, _, hparse, hnext⟩
      have hlast (hstep : (step h t m c).isRunning = false) :
          ∃ fates pending, (trace h t m settled host (n + 1)).filter isOfToken = lives fates pending := by
        obtain ⟨pending', hevents⟩ := lives_last hmarked' hpending fates hstep
        rw [trace_succ, hparse, filter_append, hlives]
        exact ⟨fates, pending', hevents⟩
      cases hstep : step h t m c with
      | running c' =>
        obtain ⟨fates, pending, hlives, -⟩ := exists_lives hmarked hreply (parse_succ.mpr ⟨c, hparse, hstep⟩)
        exact ⟨fates, pending, hlives⟩
      | finished v c' => exact hlast (by rw [hstep]; rfl)
      | failed e c' => exact hlast (by rw [hstep]; rfl)

end Trace

section Ending

variable {settled : Bool} {host : σ} {n : Nat} {es fs : List (TokenEvent S V)}

omit [DecidableEq S] [Vocabulary S] in
lemma EndsLate.append_of_mem (hes : EndsLate es) (hmem : .obtained none ∈ es) : EndsLate (es ++ fs) := by
  intro before after heq
  rcases append_eq_append_iff.mp heq with ⟨x, rfl, -⟩ | ⟨x, rfl, hx⟩
  · exact mem_append_left _ hmem
  · cases x with
    | nil => simpa using hmem
    | cons e x =>
      obtain ⟨rfl, -⟩ := List.cons.inj hx
      exact hes before x rfl

omit [DecidableEq S] [Vocabulary S] in
lemma EndsLate.append_of_not_mem (hes : EndsLate es) (hnot : .ended ∉ fs) : EndsLate (es ++ fs) := by
  intro before after heq
  rcases append_eq_append_iff.mp heq with ⟨x, -, rfl⟩ | ⟨x, rfl, hx⟩
  · exact absurd (mem_append_right _ mem_cons_self) hnot
  · cases x with
    | nil =>
      rw [← nil_append fs, ← hx] at hnot
      exact absurd mem_cons_self hnot
    | cons e x =>
      obtain ⟨rfl, -⟩ := List.cons.inj hx
      exact hes before x rfl

lemma ended_not_mem_departed : .ended ∉ departed h t c := by
  have hmap : ∀ (fate : Fate) (ss : List (StackSymbol S V)), .ended ∉ ss.map fate.event := by
    intro fate ss hmem
    obtain ⟨s, -, hs⟩ := mem_map.mp hmem
    cases fate <;> cases hs
  unfold departed
  split
  · unfold departing
    split
    · exact hmap .shifted _
    · exact not_mem_nil
    · split_ifs
      · exact hmap .discarded _
      · exact hmap .discarded _
      · exact not_mem_nil
  · exact not_mem_nil

lemma ended_mem_endingWith {s : StackSymbol S V} : .ended ∈ endingWith s ↔ s.type = endMark := by
  unfold endingWith
  split_ifs with hs <;> simp [hs]

def Endless (queue : List (Option (StackSymbol S V))) : Prop :=
  ∀ s, some s ∈ queue → s.type ≠ endMark

lemma received_cases (hnot : ¬ Misreads h t c) (hqueue : Endless c.queue) :
    .ended ∉ received h t c ∨ ∃ fs, received h t c = .obtained none :: fs := by
  unfold received
  split
  · rename_i s rest hd hl hp
    left
    rw [ended_mem_endingWith]
    cases s with
    | none => exact absurd ⟨hd, hl, .inl (by rw [hp]; rfl)⟩ hnot
    | some s => exact hqueue s (by rw [Config.queue, hp]; simp)
  · rename_i hd hl hp
    split
    · exact .inl not_mem_nil
    · rename_i s hs
      cases s with
      | none => exact .inr ⟨_, rfl⟩
      | some token =>
        left
        rw [mem_cons, ended_mem_endingWith]
        rintro (hcontra | hend)
        · cases hcontra
        · exact hnot ⟨hd, hl, .inr ⟨hp, token, _, Prod.ext hs rfl, hend⟩⟩
  · exact .inl not_mem_nil

lemma endless_of_fetch (hnot : ¬ Misreads h t c) (hqueue : Endless c.queue) (hd : t.default? c.state = none)
    (hfetch : fetch h c = (.ok ahead, c₁)) :
    (ahead.type ≠ endMark ∧ Endless c₁.pushback) ∨ .obtained none ∈ received h t c := by
  have hpushback : Endless c.pushback := fun s hs => hqueue s (mem_cons_of_mem _ hs)
  rcases of_fetch hfetch with ⟨hl, rfl⟩ | ⟨hl, s, rest, hp, rfl, rfl⟩ | ⟨hl, hp, s, host, hnext, rfl, rfl⟩
  · exact .inl ⟨hqueue _ (by rw [Config.queue, hl]; exact mem_cons_self), hpushback⟩
  · left
    rw [hp] at hpushback
    refine ⟨?_, fun s hs => hpushback s (mem_cons_of_mem _ hs)⟩
    cases s with
    | none => exact absurd ⟨hd, hl, .inl (by rw [hp]; rfl)⟩ hnot
    | some s => exact hpushback s mem_cons_self
  · cases s with
    | none =>
      right
      simp [received, hd, hl, hp, hnext]
    | some token =>
      left
      refine ⟨fun hend => hnot ⟨hd, hl, .inr ⟨hp, token, host, hnext, hend⟩⟩, ?_⟩
      exact hpushback

omit [DecidableEq S] in
lemma Passes.endless (hmarks : (endMark : S) ≠ errorMark) {queue pushback : List (Option (StackSymbol S V))}
    (hpasses : Passes ahead pushback queue es) (hahead : ahead.type ≠ endMark) (hpushback : Endless pushback) :
    Endless queue := by
  have hcons : ∀ {s : StackSymbol S V} {q : List (Option (StackSymbol S V))}, s.type ≠ endMark → Endless q →
      Endless (some s :: q) := by
    intro s q hs hq s' hs'
    rcases mem_cons.mp hs' with heq | hs'
    · obtain rfl := Option.some.inj heq
      exact hs
    · exact hq s' hs'
  have herror : ∀ {s : StackSymbol S V}, s.type = errorMark → s.type ≠ endMark :=
    fun hs hend => hmarks (hend.symm.trans hs)
  cases hpasses with
  | kept => exact hcons hahead hpushback
  | preceded htype _ => exact hcons (herror htype) (hcons hahead hpushback)
  | moved htype _ _ => exact hcons (herror htype) hpushback
  | left fate => exact fun s hs => hpushback s ((mem_cons.mp hs).resolve_left (some_ne_none s))
  | wiped => exact fun s hs => absurd (mem_singleton.mp hs) (some_ne_none s)

structure Late (h : Host S V σ E) (t : Tables S) (m : Mode) (settled : Bool) (host : σ) (n : Nat) (c : Config S V σ) :
    Prop where
  endsLate : EndsLate (trace h t m settled host n)
  endless : .obtained none ∉ trace h t m settled host n → Endless c.queue

lemma Late.received (hc : Late h t m settled host n c) (hgood : .obtained none ∉ trace h t m settled host n → ¬ Misreads h t c)
    (hnot : .ended ∉ fs) : EndsLate (trace h t m settled host n ++ (received h t c ++ fs)) := by
  by_cases hmem : .obtained none ∈ trace h t m settled host n
  · exact hc.endsLate.append_of_mem hmem
  · rcases received_cases (hgood hmem) (hc.endless hmem) with hreceived | ⟨gs, hreceived⟩
    · exact hc.endsLate.append_of_not_mem (not_mem_append hreceived hnot)
    · have hfirst : EndsLate (trace h t m settled host n ++ [.obtained none]) :=
        hc.endsLate.append_of_not_mem (by simp)
      rw [hreceived, cons_append, append_cons]
      exact hfirst.append_of_mem (by simp)

lemma late_of_not_misreads (hmarks : (endMark : S) ≠ errorMark) (hreply : h.LeavesRecovery)
    (hgood : ∀ n c, parse h t m n settled host = .running c → .obtained none ∉ trace h t m settled host n →
      ¬ Misreads h t c) (hparse : parse h t m n settled host = .running c) : Late h t m settled host n c := by
  induction n generalizing c with
  | zero =>
    obtain ⟨log, hlog⟩ := exists_run h t m settled host
    rw [hlog] at hparse
    obtain rfl := Progress.running.inj hparse
    refine ⟨?_, fun _ s hs => absurd (mem_singleton.mp hs) (some_ne_none s)⟩
    intro before after hnil
    exact absurd hnil.symm (append_ne_nil_of_right_ne_nil _ (cons_ne_nil _ _))
  | succ n ih =>
    obtain ⟨c₀, hparse₀, hstep⟩ := parse_succ.mp hparse
    have hlate := ih hparse₀
    have hsucc := trace_of_running hparse₀ hstep
    refine ⟨?_, ?_⟩
    · rw [hsucc]
      exact hlate.received (hgood n c₀ hparse₀) ended_not_mem_departed
    · intro hmem
      rw [hsucc, mem_append, mem_append, not_or, not_or] at hmem
      have hqueue := hlate.endless hmem.1
      have hnot := hgood n c₀ hparse₀ hmem.1
      rcases (moves_of_step hstep).passes hreply with ⟨-, hkept | ⟨s, htype, -, hraised⟩⟩ | ⟨hd, ahead, c₁, hfetch, hpasses⟩
      · rwa [hkept]
      · rw [hraised]
        intro s' hs'
        rcases mem_cons.mp hs' with heq | hs'
        · obtain rfl := Option.some.inj heq
          exact fun hend => hmarks (hend.symm.trans htype)
        · exact hqueue s' hs'
      · rcases endless_of_fetch hnot hqueue hd hfetch with ⟨hahead, hpushback⟩ | hobtained
        · exact hpasses.endless hmarks hahead hpushback
        · exact absurd hobtained hmem.2.1

lemma exists_eventsOf (h : Host S V σ E) (t : Tables S) (m : Mode) (c : Config S V σ) :
    ∃ fs, eventsOf h t m c = received h t c ++ fs ∧ .ended ∉ fs := by
  unfold eventsOf
  split
  · exact ⟨_, rfl, ended_not_mem_departed⟩
  · exact ⟨_, rfl, not_mem_nil⟩

lemma endsLate_iff (hmarks : (endMark : S) ≠ errorMark) (hreply : h.LeavesRecovery) :
    (∀ n, EndsLate (trace h t m settled host n)) ↔
      ∀ n c, parse h t m n settled host = .running c → .obtained none ∉ trace h t m settled host n → ¬ Misreads h t c := by
  constructor
  · rintro hlate n c hparse hmem ⟨hd, hl, hmisread⟩
    obtain ⟨fs, hfs, -⟩ := exists_eventsOf h t m c
    have hsucc := hlate (n + 1)
    rw [trace_succ, hparse] at hsucc
    dsimp only at hsucc
    rw [hfs] at hsucc
    rcases hmisread with hhead | ⟨hp, token, host', hnext, hend⟩
    · obtain ⟨rest, hp⟩ := head?_eq_some_iff.mp hhead
      have hreceived : received h t c = [.ended] := by
        simp [received, hd, hl, hp, endingWith, StackSymbol.atEnd]
      rw [hreceived] at hsucc
      exact hmem (hsucc _ _ rfl)
    · have hreceived : received h t c = [.obtained (some token.unplaced), .ended] := by
        simp [received, hd, hl, hp, hnext, endingWith, hend]
      rw [hreceived, cons_append, append_cons] at hsucc
      have := hsucc _ _ rfl
      simp [hmem] at this
  · intro hgood n
    induction n with
    | zero =>
      intro before after hnil
      exact absurd hnil.symm (append_ne_nil_of_right_ne_nil _ (cons_ne_nil _ _))
    | succ n ih =>
      rw [trace_succ]
      cases hparse : parse h t m n settled host with
      | running c =>
        obtain ⟨fs, hfs, hnot⟩ := exists_eventsOf h t m c
        dsimp only
        rw [hfs]
        exact (late_of_not_misreads hmarks hreply hgood hparse).received (hgood n c hparse) hnot
      | finished v c => simpa using ih
      | failed e c => simpa using ih

end Ending

section Unread

variable {settled : Bool} {host : σ} {n : Nat}

lemma none_not_mem_pushback (hreply : h.LeavesRecovery)
    (hread : ∀ n c, parse h t m n settled host = .running c → ¬ RaisesUnread h t m c)
    (hparse : parse h t m n settled host = .running c) : none ∉ c.pushback := by
  refine parse_invariant (P := fun c => none ∉ c.pushback) (fun log => not_mem_nil) ?_ hparse
  intro n c c' hparse _ hc hmoves
  have hpasses := hmoves.passes hreply
  rcases hpasses with ⟨hd, hqueue⟩ | ⟨hd, ahead, c₁, hfetch, hpasses⟩
  · cases hmoves with
    | default hd' hp hreduces =>
      cases hreduces with
      | done => exact hc
      | raised hs happly =>
        have hl : c.lookahead ≠ none := fun hl => hread n c hparse ⟨hl, _, _, _, _, hd', hp, hs, happly⟩
        exact not_mem_cons_of_ne_of_not_mem hl.symm hc
    | shift _ hd' => exact absurd hd' hd
    | reduce hd' => exact absurd hd' hd
    | recover hd' => exact absurd hd' hd
  · have hc₁ : none ∉ c₁.pushback := by
      rcases of_fetch hfetch with ⟨-, rfl⟩ | ⟨-, s, rest, hp, -, rfl⟩ | ⟨-, -, s, host, -, -, rfl⟩
      · exact hc
      · exact fun hmem => hc (hp ▸ mem_cons_of_mem _ hmem)
      · exact hc
    have htail : none ∉ c'.queue.tail := by
      generalize c'.queue = queue at hpasses
      generalize departed h t c = events at hpasses
      cases hpasses with
      | kept => exact hc₁
      | preceded => exact not_mem_cons_of_ne_of_not_mem (some_ne_none ahead).symm hc₁
      | moved => exact hc₁
      | left => exact hc₁
      | wiped => exact not_mem_nil
    exact htail

end Unread

/-- Each token that is obtained is shifted or discarded once, before the next one is obtained, as long as the error
function leaves recovery to the parser. The end of the input is met too early precisely where the next step takes
something else for it. Apart from tokens of its type, that needs a rule that asks for recovery when nothing has been read
ahead. -/
theorem token_fates {h : Host String V σ E} (hreply : h.LeavesRecovery) (t : Tables String) (m : Mode) (settled : Bool)
    (host : σ) (hmarked : ∀ token, Gives h t m settled host token → token.isToken = true) :
    (∀ n, ∃ fates pending, (trace h t m settled host n).filter isOfToken = lives fates pending) ∧
    ((∀ n, EndsLate (trace h t m settled host n)) ↔
      ∀ n c, parse h t m n settled host = .running c → .obtained none ∉ trace h t m settled host n → ¬ Misreads h t c) ∧
    ((∀ n c, parse h t m n settled host = .running c → ¬ RaisesUnread h t m c) →
      (∀ token, Gives h t m settled host token → token.type ≠ endMark) → ∀ n, EndsLate (trace h t m settled host n)) := by
  have hmarks : (endMark : String) ≠ errorMark := by decide
  refine ⟨exists_lives_trace hmarked hreply, endsLate_iff hmarks hreply, fun hread hplain => ?_⟩
  rw [endsLate_iff hmarks hreply]
  rintro n c hparse - ⟨-, -, hhead | ⟨-, token, host', hnext, hend⟩⟩
  · exact none_not_mem_pushback hreply hread hparse (mem_of_head? hhead)
  · exact hplain token ⟨n, c, host', hparse, hnext⟩ hend

section Samples

variable {rest : σ → List (StackSymbol S V)} {ds : Declarations Behaviour} {settled : Bool} {host : σ}

lemma Host.Feeds.suffix (hf : h.Feeds rest) (hnone : h.onError = none) {n : Nat}
    (hparse : parse h t m n settled host = .running c) : rest c.host <:+ rest host := by
  refine parse_invariant (P := fun c => rest c.host <:+ rest host) (fun log => suffix_refl _) ?_ hparse
  intro n c c' _ _ hc hmoves
  have hfetched : ∀ {ahead c₁}, fetch h c = (.ok ahead, c₁) → rest c₁.host <:+ rest host := by
    intro ahead c₁ hfetch
    rcases of_fetch hfetch with ⟨-, rfl⟩ | ⟨-, s, more, -, -, rfl⟩ | ⟨-, -, s, host', hnext, -, rfl⟩
    · exact hc
    · exact hc
    · dsimp only
      rw [← (Prod.mk.inj hnext).2, hf.next]
      exact (tail_suffix _).trans hc
  have hreduced : ∀ {c₀ c' : Config S V σ} {p : Production S}, Reduces h t m p c₀ c' → rest c'.host = rest c₀.host := by
    intro c₀ c' p hreduces
    cases hreduces with
    | done _ happly => exact (congrArg rest (Prod.mk.inj happly).2.symm).trans (hf.apply _ _)
    | raised _ happly => exact (congrArg rest (Prod.mk.inj happly).2.symm).trans (hf.apply _ _)
  have hheard : ∀ {ahead host' reply host''}, Heard h ahead host' reply host'' → host'' = host' := by
    intro ahead host' reply host'' hheard
    cases hheard with
    | unasked => rfl
    | asked hf' => simp [hnone] at hf'
  cases hmoves with
  | default _ _ hreduces => exact (hreduced hreduces).symm ▸ hc
  | shift _ _ hfetch =>
    have hc₁ := hfetched hfetch
    exact hc₁
  | reduce _ hfetch _ _ hreduces =>
    have hc₁ := hfetched hfetch
    exact (hreduced hreduces).symm ▸ hc₁
  | recover _ hfetch _ hrecovers =>
    have hc₁ := hfetched hfetch
    cases hrecovers with
    | panic h₁ _ hpanics =>
      rw [hpanics.host_eq, Config.alarmed, hheard h₁]
      exact hc₁
    | settled h₁ =>
      rw [Config.alarmed, hheard h₁]
      exact hc₁

lemma Host.Feeds.mem_of_gives (hf : h.Feeds rest) (hnone : h.onError = none) {token : StackSymbol S V}
    (hgives : Gives h t m settled host token) : token ∈ rest host := by
  obtain ⟨n, c, host', hparse, hnext⟩ := hgives
  refine (hf.suffix hnone hparse).subset (mem_of_head? ?_)
  have htoken := hf.token c.host
  rw [hnext] at htoken
  exact (Except.ok.inj htoken).symm

omit [DecidableEq S] [Vocabulary S] in
lemma leavesRecovery_of_none (hnone : h.onError = none) : h.LeavesRecovery := by
  constructor
  intro f offending s reply s' hf
  rw [hnone] at hf
  cases hf

def TokenEvent.isEnded : TokenEvent S V → Bool
  | ended => true
  | _ => false

def TokenEvent.isExhausted : TokenEvent S V → Bool
  | obtained none => true
  | _ => false

omit [DecidableEq S] [Vocabulary S] in
lemma not_endsLate {es : List (TokenEvent S V)} (hended : es.any TokenEvent.isEnded = true)
    (hnot : es.any TokenEvent.isExhausted = false) : ¬ EndsLate es := by
  intro hlate
  obtain ⟨e, he, hisEnded⟩ := any_eq_true.mp hended
  cases e with
  | ended =>
    obtain ⟨before, after, heq⟩ := List.append_of_mem he
    have hmem : .obtained none ∈ es := heq ▸ mem_append_left _ (hlate before after heq)
    exact absurd (any_eq_false.mp hnot _ hmem) (by simp [TokenEvent.isExhausted])
  | obtained token => cases hisEnded
  | shifted token => cases hisEnded
  | discarded token => cases hisEnded

def mayRaise (ds : Declarations Behaviour) (rule : String) : Bool :=
  match ds.routine? rule with
  | some { behaviour := .rule a, .. } => a.raises || a.raisesOn.isSome
  | _ => false

lemma mayRaise_of_raised {r : Reduction String Datum} {s s' : TokenFeed}
    (happly : (behaviourHost ds).apply r s = (.raised, s')) : mayRaise ds r.production.rule = true := by
  dsimp only [behaviourHost] at happly
  split at happly
  · rename_i a hroutine
    by_contra hcalm
    simp only [mayRaise, hroutine] at hcalm
    rw [Bool.not_eq_true, Bool.or_eq_false_iff] at hcalm
    have hnone : a.raisesOn = none := by simpa using hcalm.2
    have hasks : a.asksRecovery r = .ok false := by
      simp [RuleAction.asksRecovery, hcalm.1, hnone]
    simp only [RuleAction.run, hasks] at happly
    split at happly
    · cases happly
    · cases happly
  · cases happly

def defaultsCalm (ds : Declarations Behaviour) (t : Tables String) : Bool :=
  t.defaults.all fun d =>
    match d.bind fun n => t.productions[n]? with
    | some p => !mayRaise ds p.rule
    | none => true

lemma not_raisesUnread {t : Tables String} (hcalm : defaultsCalm ds t = true) {m : Mode}
    (c : Config String Datum TokenFeed) : ¬ RaisesUnread (behaviourHost ds) t m c := by
  rintro ⟨-, n, p, s, host, hd, hp, -, happly⟩
  have hmem : some n ∈ t.defaults := mem_of_getElem? (join_eq_some_iff.mp hd)
  have hn := all_eq_true.mp hcalm _ hmem
  simp only [bind_some, hp] at hn
  rw [mayRaise_of_raised happly] at hn
  cases hn

end Samples

/-- A rule asks for recovery, but only with the next token at hand: all tokens are settled and the end comes late. -/
theorem token_fates_unfilled : ∃ (b : Built) (logs : Logs), Parser.build unfilled {} = (.ok b, logs) ∧
    (behaviourHost unfilled).LeavesRecovery ∧
    (∀ token, Gives (behaviourHost unfilled) b.tables {} true { rest := pairTokens } token → token.isToken = true) ∧
    (∃ n c, parse (behaviourHost unfilled).recording b.tables {} n true ({ rest := pairTokens }, []) = .running c ∧
      (c.host.2.any fun call => call.2.isRaised) = true) ∧
    (∀ n, ∃ fates pending, (trace (behaviourHost unfilled) b.tables {} true { rest := pairTokens } n).filter isOfToken =
      lives fates pending) ∧
    ∀ n, EndsLate (trace (behaviourHost unfilled) b.tables {} true { rest := pairTokens } n) := by
  have hreply : (behaviourHost unfilled).LeavesRecovery := leavesRecovery_of_none rfl
  have hraised : (parse (behaviourHost unfilled).recording unfilledParser.tables {}
      3 true ({ rest := pairTokens }, [])).isRunningWith (fun c => c.host.2.any fun call => call.2.isRaised) = true := by
    decide +kernel
  have hcalm : defaultsCalm unfilled unfilledParser.tables = true := by
    decide +kernel
  have hgives : ∀ token, Gives (behaviourHost unfilled) unfilledParser.tables {}
      true { rest := pairTokens } token → token ∈ pairTokens :=
    fun token => (feeds_behaviourHost unfilled).mem_of_gives rfl
  have htokens : ∀ token ∈ pairTokens, token.isToken = true ∧ token.type ≠ endMark := by
    decide
  have hmarked := fun token hg => (htokens token (hgives token hg)).1
  obtain ⟨hlives, -, hlate⟩ := token_fates hreply _ _ _ _ hmarked
  exact ⟨unfilledParser, _, eq_built _, hreply, hmarked, ⟨3, Progress.exists_running hraised⟩, hlives,
    hlate (fun n c _ => not_raisesUnread hcalm c) fun token hg => (htokens token (hgives token hg)).2⟩

/-- The end is met after the third of four tokens: a rule asks for recovery before the fourth one is read. -/
theorem token_end_early : ∃ (b : Built) (logs : Logs), Parser.build refused {} = (.ok b, logs) ∧
    (behaviourHost refused).LeavesRecovery ∧
    (∀ token, Gives (behaviourHost refused) b.tables {} true { rest := pairTokens } token → token.isToken = true) ∧
    ¬ EndsLate (trace (behaviourHost refused) b.tables {} true { rest := pairTokens } 7) := by
  have hended : (trace (behaviourHost refused) refusedParser.tables {} true
      { rest := pairTokens } 7).any TokenEvent.isEnded = true := by
    decide +kernel
  have hnot : (trace (behaviourHost refused) refusedParser.tables {} true
      { rest := pairTokens } 7).any TokenEvent.isExhausted = false := by
    decide +kernel
  have htokens : ∀ token ∈ pairTokens, token.isToken = true := by
    decide
  exact ⟨refusedParser, _, eq_built _, leavesRecovery_of_none rfl,
    fun token hg => htokens token ((feeds_behaviourHost refused).mem_of_gives rfl hg), not_endsLate hended hnot⟩

end LispKit.Parser
