import LispKit.Proofs.Scanner.Built
import Mathlib

/-! Scanning with the rules of the current state: the next token as a scanner finds it that reads the state's rules anew
before every step, and when the characters to be ignored are those of an earlier state. -/

namespace LispKit.Scanner

variable {V σ : Type} {mk : Maker V} {next next' : Scanner V σ → σ → Outcome V σ} {w : Window} {position : Int}
  {ignored : String} {sc : Scanner V σ} {host : σ}

def Script.fed (s : Script V σ) (t : Token V) (sc : Scanner V σ) (host : σ) : Option (Scanner V σ × σ) :=
  match s.ending with
  | .feed text =>
    match performAll s.effects t sc host with
    | (.ok _, sc, host) => if sc.text = some text.toList then none else some (sc.input text.toList, host)
    | (.error _, _, _) => none
  | _ => none

def Script.feeds (s : Script V σ) : Bool :=
  match s.ending with
  | .feed _ => true
  | _ => false

namespace Handler

def fed (h : Handler V σ) (t : Token V) (sc : Scanner V σ) (host : σ) : Option (Scanner V σ × σ) :=
  (h.call t sc.situation host).fed t sc host

/-- The handler leaves the input alone. -/
def Unfed (h : Handler V σ) : Prop :=
  ∀ t v host, (h.call t v host).feeds = false

variable {h : Handler V σ} {t : Token V}

lemma run_congr (hf : ∀ p ∈ h.fed t sc host, next p.1 p.2 = next' p.1 p.2) :
    h.run next t sc host = h.run next' t sc host := by
  unfold run Script.run
  unfold fed Script.fed at hf
  generalize h.call t sc.situation host = s at hf ⊢
  generalize performAll s.effects t sc host = r at hf ⊢
  rcases r with ⟨e | t, sc', host'⟩
  · rfl
  · dsimp only
    split
    · rfl
    · rfl
    · rename_i text he
      rw [he] at hf
      split
      · rfl
      · rename_i htext
        exact hf (sc'.input text.toList, host') (if_neg htext)

lemma keeps_fed {p : Scanner V σ × σ} (hf : h.fed t sc host = some p) : Keeps sc p.1 := by
  unfold fed Script.fed at hf
  generalize h.call t sc.situation host = s at hf
  have hp := keeps_performAll s.effects t sc host
  generalize performAll s.effects t sc host = r at hf hp
  split at hf
  · rcases r with ⟨e | t, sc', host'⟩
    · cases hf
    · dsimp only at hf
      split at hf
      · cases hf
      · obtain rfl := Option.some.inj hf
        exact hp.trans (.input sc' _)
  · cases hf

lemma fed_eq_none (hf : h.Unfed) (t : Token V) (sc : Scanner V σ) (host : σ) : h.fed t sc host = none := by
  have hf := hf t sc.situation host
  unfold fed Script.fed
  generalize h.call t sc.situation host = s at hf
  cases he : s.ending with
  | keep => rfl
  | drop => rfl
  | feed text => simp [Script.feeds, he] at hf

end Handler

section Fresh

def freshRounds (mk : Maker V) (next : Scanner V σ → σ → Outcome V σ) (w : Window) :
    Nat → Int → Scanner V σ → σ → Outcome V σ
  | 0, _, sc, host => ⟨.error (.fault .tooDeep), sc, host⟩
  | n + 1, position, sc, host =>
    if position < w.length then
      match round mk next w position sc.refreshed.ignored sc.refreshed host with
      | .done o => o
      | .more position _ sc host => freshRounds mk next w n position sc host
    else atEnd mk next position sc.refreshed host

def freshTokenWithin (mk : Maker V) (steps : Nat) : Nat → Scanner V σ → σ → Outcome V σ
  | 0, sc, host => ⟨.error (.fault .tooDeep), sc, host⟩
  | depth + 1, sc, host =>
    match sc.text with
    | none =>
      if sc.position < sc.length then ⟨.error (.fault (.unindexed "NoneType")), sc, host⟩
      else atEnd mk (freshTokenWithin mk steps depth) sc.position sc.refreshed host
    | some text => freshRounds mk (freshTokenWithin mk steps depth) ⟨text, sc.length⟩ steps sc.position sc host

def freshTokens (mk : Maker V) (limits : Limits) : Nat → Scanner V σ → σ →
    List (Token V) × Except ScanError Unit × Scanner V σ × σ
  | 0, sc, host => ([], .error (.fault .tooDeep), sc, host)
  | n + 1, sc, host =>
    let o := freshTokenWithin mk limits.steps limits.depth sc host
    match o.result with
    | .error e => ([], .error e, o.scanner, o.host)
    | .ok none => ([], .ok (), o.scanner, o.host)
    | .ok (some t) =>
      let (ts, r, sc, host) := freshTokens mk limits n o.scanner o.host
      (t :: ts, r, sc, host)

end Fresh

section Attentive

def stale (w : Window) (position : Int) (ignored current : String) : Bool :=
  (indexOf? w.text.length position).any fun index =>
    (w.text.drop index).head?.any fun c => ignored.contains c != current.contains c

def FeedsOnly (mk : Maker V) (ok : Scanner V σ → σ → Prop) (position : Int) (sc : Scanner V σ) (host : σ) : Prop :=
  ∀ h ∈ sc.onEnd, ∀ p ∈ h.fed ⟨"eof", mk.ofText "", sc.line, position⟩ { sc with position := position } host, ok p.1 p.2

def Attentive (mk : Maker V) (next : Scanner V σ → σ → Outcome V σ) (ok : Scanner V σ → σ → Prop) (w : Window) :
    Nat → Int → String → Scanner V σ → σ → Prop
  | 0, _, _, _, _ => True
  | n + 1, position, ignored, sc, host =>
    if position < w.length then
      stale w position ignored sc.ignored = false ∧
        match round mk next w position ignored sc host with
        | .done _ => True
        | .more position ignored sc host => Attentive mk next ok w n position ignored sc host
    else FeedsOnly mk ok position sc host

def AttentiveWithin (mk : Maker V) (steps : Nat) : Nat → Scanner V σ → σ → Prop
  | 0, _, _ => True
  | depth + 1, sc, host =>
    match sc.text with
    | none => sc.length ≤ sc.position → FeedsOnly mk (AttentiveWithin mk steps depth) sc.position sc host
    | some text =>
      Attentive mk (tokenWithin mk steps depth) (AttentiveWithin mk steps depth) ⟨text, sc.length⟩ steps sc.position
        sc.ignored sc host

def AttentiveAll (mk : Maker V) (limits : Limits) : Nat → Scanner V σ → σ → Prop
  | 0, _, _ => True
  | n + 1, sc, host =>
    AttentiveWithin mk limits.steps limits.depth sc host ∧
      match (token mk limits sc host).result with
      | .ok (some _) => AttentiveAll mk limits n (token mk limits sc host).scanner (token mk limits sc host).host
      | _ => True

instance decidableFeedsOnly (mk : Maker V) (ok : Scanner V σ → σ → Prop) [∀ sc host, Decidable (ok sc host)]
    (position : Int) (sc : Scanner V σ) (host : σ) : Decidable (FeedsOnly mk ok position sc host) :=
  inferInstanceAs (Decidable (∀ h ∈ sc.onEnd, ∀ p ∈ h.fed _ _ host, ok p.1 p.2))

instance decidableAttentive (mk : Maker V) (next : Scanner V σ → σ → Outcome V σ) (ok : Scanner V σ → σ → Prop)
    [∀ sc host, Decidable (ok sc host)] (w : Window) :
    ∀ n position ignored sc host, Decidable (Attentive mk next ok w n position ignored sc host)
  | 0, _, _, _, _ => isTrue trivial
  | n + 1, position, ignored, sc, host =>
    have : Decidable (match round mk next w position ignored sc host with
        | .done _ => True
        | .more position ignored sc host => Attentive mk next ok w n position ignored sc host) :=
      match round mk next w position ignored sc host with
      | .done _ => isTrue trivial
      | .more position ignored sc host => decidableAttentive mk next ok w n position ignored sc host
    inferInstanceAs (Decidable (if position < w.length then _ ∧ _ else _))

instance decidableAttentiveWithin (mk : Maker V) (steps : Nat) :
    ∀ depth (sc : Scanner V σ) host, Decidable (AttentiveWithin mk steps depth sc host)
  | 0, _, _ => isTrue trivial
  | depth + 1, sc, host =>
    have : ∀ sc host, Decidable (AttentiveWithin mk steps depth sc host) := decidableAttentiveWithin mk steps depth
    match h : sc.text with
    | none => decidable_of_iff
        (sc.length ≤ sc.position → FeedsOnly mk (AttentiveWithin mk steps depth) sc.position sc host)
        (by rw [AttentiveWithin, h])
    | some text => decidable_of_iff (Attentive mk (tokenWithin mk steps depth) (AttentiveWithin mk steps depth)
        ⟨text, sc.length⟩ steps sc.position sc.ignored sc host) (by rw [AttentiveWithin, h])

instance decidableAttentiveAll (mk : Maker V) (limits : Limits) :
    ∀ n (sc : Scanner V σ) host, Decidable (AttentiveAll mk limits n sc host)
  | 0, _, _ => isTrue trivial
  | n + 1, sc, host =>
    have : Decidable (match (token mk limits sc host).result with
        | .ok (some _) => AttentiveAll mk limits n (token mk limits sc host).scanner (token mk limits sc host).host
        | _ => True) :=
      match (token mk limits sc host).result with
      | .ok (some _) => decidableAttentiveAll mk limits n _ _
      | .ok none => isTrue trivial
      | .error _ => isTrue trivial
    inferInstanceAs (Decidable (_ ∧ _))

end Attentive

section Rounds

/-- Handlers of matches and of illegal characters leave the input alone. -/
structure Rules.Unfed (rules : Rules V σ) : Prop where
  matched : ∀ ms ∈ rules.masters.values, ∀ m ∈ ms, ∀ n type h, (n, .handled type h) ∈ m.targets → h.Unfed
  illegal : ∀ o ∈ rules.onError.values, ∀ h ∈ o, h.Unfed

lemma mem_values_of_get? {ν : Type} {r : Registry String ν} {k : String} {v : ν} (h : r.get? k = some v) : v ∈ r.values := by
  obtain ⟨e, he, -, rfl⟩ := Registry.mem_of_get? h
  exact List.mem_map.mpr ⟨e, he, rfl⟩

lemma mem_targets_of_firstMatch (hs : sc.Settled) {position length : Nat} {rest : List Char} {t : Target V σ}
    (hf : firstMatch position rest sc.masters = some (length, .ok t)) :
    ∃ ms ∈ sc.rules.masters.values, ∃ m ∈ ms, ∃ n, (n, t) ∈ m.targets := by
  obtain ⟨m, hm, n, hn⟩ := mem_of_firstMatch hf
  rw [← show sc.rules.masters.getD sc.state [] = sc.masters from congrArg Scanner.masters hs, Registry.getD] at hm
  cases hg : sc.rules.masters.get? sc.state with
  | none =>
    rw [hg] at hm
    cases hm
  | some ms =>
    rw [hg] at hm
    exact ⟨ms, mem_values_of_get? hg, m, hm, n, hn⟩

variable {h : Handler V σ}

lemma mem_onError (hs : sc.Settled) (hh : sc.onError = some h) : some h ∈ sc.rules.onError.values := by
  rw [← show sc.rules.onError.getD sc.state none = sc.onError from congrArg Scanner.onError hs, Registry.getD] at hh
  cases hg : sc.rules.onError.get? sc.state with
  | none =>
    rw [hg] at hh
    cases hh
  | some o =>
    rw [hg] at hh
    obtain rfl : o = some h := hh
    exact mem_values_of_get? hg

lemma Rules.Unfed.feeds_matched (hu : sc.rules.Unfed) (hs : sc.Settled) {position length : Nat} {rest : List Char}
    {type : String} (hf : firstMatch position rest sc.masters = some (length, .ok (.handled type h))) : h.Unfed := by
  obtain ⟨ms, hms, m, hm, n, hn⟩ := mem_targets_of_firstMatch hs hf
  exact hu.matched ms hms m hm n type h hn

lemma Rules.Unfed.feeds_illegal (hu : sc.rules.Unfed) (hs : sc.Settled) (hh : sc.onError = some h) : h.Unfed :=
  hu.illegal _ (mem_onError hs hh) h rfl

inductive Round.Same : Round V σ → Round V σ → Prop
  | done (o : Outcome V σ) : Same (.done o) (.done o)
  | more (position : Int) (i i' : String) (sc : Scanner V σ) (host : σ) :
      Same (.more position i sc host) (.more position i' sc host)

lemma Round.Same.refl (r : Round V σ) : Round.Same r r := by
  cases r with
  | done o => exact .done o
  | more position i sc host => exact .more position i i sc host

lemma same_afterHandler (o : Outcome V σ) (f g : Scanner V σ → String) :
    Round.Same (afterHandler o f) (afterHandler o g) := by
  unfold afterHandler
  split
  · exact .more _ _ _ _ _
  · exact .done o

lemma run_of_unfed (hf : h.Unfed) (t : Token V) (sc : Scanner V σ) (host : σ) :
    h.run next t sc host = h.run next' t sc host := by
  apply Handler.run_congr
  simp [Handler.fed_eq_none hf]

lemma scanner_run_of_unfed (hf : h.Unfed) (t : Token V) (sc : Scanner V σ) (host : σ) :
    (h.run next t sc host).scanner = (performAll (h.call t sc.situation host).effects t sc host).2.1 := by
  have hf := hf t sc.situation host
  rw [Handler.run, Script.run]
  generalize h.call t sc.situation host = s at hf
  rcases performAll s.effects t sc host with ⟨e | t, sc', host'⟩
  · rfl
  · cases he : s.ending with
    | keep => rfl
    | drop => rfl
    | feed text => simp [Script.feeds, he] at hf

lemma same_illegal (c : Char) (i i' : String) :
    Round.Same (illegal mk next c position i sc host) (illegal mk next c position i' sc host) := by
  unfold illegal
  dsimp only
  split
  · exact .refl _
  · split
    · exact .refl _
    · split
      · exact .refl _
      · exact same_afterHandler _ _ _

lemma same_round {i i' : String} (hi : stale w position i i' = false) :
    Round.Same (round mk next w position i sc host) (round mk next w position i' sc host) := by
  unfold round
  split
  · exact .refl _
  · rename_i index hindex
    split
    · exact .refl _
    · rename_i c rest hrest
      have hc : i.contains c = i'.contains c := by
        rw [stale, hindex, Option.any_some, hrest, List.head?_cons, Option.any_some] at hi
        exact bne_eq_false_iff_eq.mp hi
      rw [← hc]
      split
      · exact .more _ _ _ _ _
      · dsimp only
        split
        · rename_i length target hfirst
          rcases target with f | _ | type | ⟨type, h⟩
          · exact .refl _
          · exact .more _ _ _ _ _
          · exact .refl _
          · exact .refl _
        · split
          · exact .refl _
          · exact same_illegal c i i'

variable (hs : sc.Settled) (hu : sc.rules.Unfed)

include hs hu

lemma illegal_congr (c : Char) :
    illegal mk next c position ignored sc host = illegal mk next' c position ignored sc host := by
  unfold illegal
  dsimp only
  split
  · rfl
  · rename_i h hh
    have hf : h.Unfed := hu.feeds_illegal hs hh
    rw [show h.run next _ _ host = h.run next' _ _ host from run_of_unfed hf _ _ host]

lemma round_congr : round mk next w position ignored sc host = round mk next' w position ignored sc host := by
  unfold round
  split
  · rfl
  · split
    · rfl
    · split
      · rfl
      · dsimp only
        split
        · rename_i length target hfirst
          rcases target with f | _ | type | ⟨type, h⟩
          · rfl
          · rfl
          · rfl
          · have hf : h.Unfed := hu.feeds_matched hs hfirst
            simp only [matched]
            rw [show h.run next _ _ host = h.run next' _ _ host from run_of_unfed hf _ _ host]
        · split
          · rfl
          · exact illegal_congr hs hu _

lemma more_round {p : Int} {i : String} {sc' : Scanner V σ} {host' : σ}
    (h : round mk next w position ignored sc host = .more p i sc' host') :
    sc' = sc ∧ i = ignored ∨ i = sc'.ignored ∨
      i = ignored ∧ ∃ hd ∈ sc.onError, ∃ t v, sc' =
        (performAll (hd.call t v host).effects t { sc with position := position } host).2.1 := by
  have hafter : ∀ {o : Outcome V σ} {f : Scanner V σ → String}, afterHandler o f = .more p i sc' host' →
      sc' = o.scanner ∧ i = f o.scanner := by
    intro o f ho
    unfold afterHandler at ho
    split at ho
    · obtain ⟨-, rfl, rfl, -⟩ := Round.more.inj ho
      exact ⟨rfl, rfl⟩
    · cases ho
  unfold round at h
  split at h
  · cases h
  · split at h
    · cases h
    · split at h
      · obtain ⟨-, rfl, rfl, -⟩ := Round.more.inj h
        exact .inl ⟨rfl, rfl⟩
      · dsimp only at h
        split at h
        · rename_i target _
          rcases target with f | target
          · cases h
          · cases target with
            | ignored =>
              obtain ⟨-, rfl, rfl, -⟩ := Round.more.inj h
              exact .inl ⟨rfl, rfl⟩
            | token type => cases h
            | handled type hd =>
              obtain ⟨rfl, rfl⟩ := hafter h
              exact .inr (.inl rfl)
        · split at h
          · cases h
          · unfold illegal at h
            dsimp only at h
            split at h
            · cases h
            · rename_i hd hh
              split at h
              · cases h
              · split at h
                · cases h
                · obtain ⟨rfl, rfl⟩ := hafter h
                  have hf : hd.Unfed := hu.feeds_illegal hs hh
                  exact .inr (.inr ⟨rfl, hd, hh, _, _, scanner_run_of_unfed hf _ _ _⟩)

end Rounds

section Agreement

variable {ok : Scanner V σ → σ → Prop}

lemma atEnd_congr (hnext : ∀ sc' host', Keeps sc sc' → ok sc' host' → next sc' host' = next' sc' host')
    (hf : FeedsOnly mk ok position sc host) : atEnd mk next position sc host = atEnd mk next' position sc host := by
  unfold atEnd
  split
  · rename_i h hh
    apply Handler.run_congr
    intro p hp
    exact hnext p.1 p.2 ((Keeps.placed sc position sc.line).trans (Handler.keeps_fed hp)) (hf h hh p hp)
  · rfl

lemma rounds_eq_fresh (hkeep : ∀ sc host, Keeps sc (next sc host).scanner) (hs : sc.Settled) (hu : sc.rules.Unfed)
    (hnext : ∀ sc' host', Keeps sc sc' → ok sc' host' → next sc' host' = next' sc' host') (n : Nat)
    (ha : Attentive mk next ok w n position ignored sc host) :
    rounds mk next w n position ignored sc host = freshRounds mk next' w n position sc host := by
  induction n generalizing position ignored sc host with
  | zero => rfl
  | succ n ih =>
    rw [Attentive] at ha
    rw [rounds, freshRounds, show sc.refreshed = sc from hs]
    split at ha
    · rename_i hlt
      obtain ⟨hstale, hrest⟩ := ha
      rw [if_pos hlt, if_pos hlt]
      have hsame : Round.Same (round mk next w position ignored sc host) (round mk next' w position sc.ignored sc host) := by
        rw [← round_congr hs hu]
        exact same_round hstale
      have hround : Keeps sc (round mk next w position ignored sc host).scanner :=
        keeps_round hkeep w position ignored sc host
      generalize round mk next w position ignored sc host = r at hsame hrest hround
      generalize round mk next' w position sc.ignored sc host = r' at hsame
      cases hsame with
      | done o => rfl
      | more p i i' sc' host' =>
        apply ih (hround.settled hs) (hround.rules ▸ hu) _ hrest
        intro sc₁ host₁ h
        exact hnext sc₁ host₁ (hround.trans h)
    · rename_i hlt
      rw [if_neg hlt, if_neg hlt]
      exact atEnd_congr hnext ha

lemma tokenWithin_eq_fresh {steps depth : Nat} (hs : sc.Settled) (hu : sc.rules.Unfed)
    (ha : AttentiveWithin mk steps depth sc host) :
    tokenWithin mk steps depth sc host = freshTokenWithin mk steps depth sc host := by
  induction depth generalizing sc host with
  | zero => rfl
  | succ depth ih =>
    have hnext : ∀ sc' host', Keeps sc sc' → AttentiveWithin mk steps depth sc' host' →
        tokenWithin mk steps depth sc' host' = freshTokenWithin mk steps depth sc' host' :=
      fun sc' host' hk => ih (hk.settled hs) (hk.rules ▸ hu)
    rw [AttentiveWithin] at ha
    rw [tokenWithin, freshTokenWithin]
    cases htext : sc.text with
    | none =>
      simp only [htext] at ha
      by_cases hlt : sc.position < sc.length
      · simp only [if_pos hlt]
      · simp only [if_neg hlt, show sc.refreshed = sc from hs]
        exact atEnd_congr hnext (ha (Int.not_lt.mp hlt))
    | some text =>
      simp only [htext] at ha
      exact rounds_eq_fresh (keeps_tokenWithin mk steps depth) hs hu hnext steps ha

lemma tokens_eq_freshTokens {limits : Limits} (n : Nat) (hs : sc.Settled) (hu : sc.rules.Unfed)
    (ha : AttentiveAll mk limits n sc host) : tokens mk limits n sc host = freshTokens mk limits n sc host := by
  induction n generalizing sc host with
  | zero => rfl
  | succ n ih =>
    obtain ⟨hone, hmore⟩ := ha
    have hkeep : Keeps sc (token mk limits sc host).scanner := keeps_tokenWithin mk limits.steps limits.depth sc host
    have htoken : token mk limits sc host = freshTokenWithin mk limits.steps limits.depth sc host :=
      tokenWithin_eq_fresh hs hu hone
    rw [tokens, freshTokens, ← htoken]
    cases hr : (token mk limits sc host).result with
    | error e => rfl
    | ok t =>
      rw [hr] at hmore
      cases t with
      | none => rfl
      | some t => simp only [ih (hkeep.settled hs) (hkeep.rules ▸ hu) hmore]

end Agreement

section Steady

def Effect.stays : Effect V σ → Bool
  | begin _ | push _ | pop => false
  | _ => true

/-- No handler of illegal characters changes the state, or all states ignore the same characters. -/
def Rules.Steady (rules : Rules V σ) : Prop :=
  (∀ state, ∀ h ∈ rules.onError.getD state none, ∀ t v host, ∀ e ∈ (h.call t v host).effects, e.stays = true) ∨
    ∀ state state' (c : Char), (rules.ignored.getD state "").contains c = (rules.ignored.getD state' "").contains c

lemma ignored_performAll {es : List (Effect V σ)} (h : ∀ e ∈ es, e.stays = true) (t : Token V) (sc : Scanner V σ)
    (host : σ) : (performAll es t sc host).2.1.ignored = sc.ignored := by
  induction es generalizing t sc host with
  | nil => rfl
  | cons e es ih =>
    have hone : (e.perform t sc host).2.1.ignored = sc.ignored := by
      have he := h e List.mem_cons_self
      cases e with
      | edit f =>
        rw [Effect.perform]
        split <;> rfl
      | countLines f =>
        rw [Effect.perform]
        split <;> rfl
      | begin state => cases he
      | push state => cases he
      | pop => cases he
      | skip n => rfl
    rw [performAll]
    generalize e.perform t sc host = r at hone ⊢
    rcases r with ⟨e' | t', sc', host'⟩
    · exact hone
    · exact (ih (fun e he => h e (List.mem_cons_of_mem _ he)) _ _ _).trans hone

variable (hs : sc.Settled) (hu : sc.rules.Unfed) (hy : sc.rules.Steady)

include hs hu hy

lemma ignored_more (hi : ∀ c : Char, ignored.contains c = sc.ignored.contains c) {p : Int} {i : String} {sc' : Scanner V σ}
    {host' : σ} (hk : Keeps sc sc') (h : round mk next w position ignored sc host = .more p i sc' host') (c : Char) :
    i.contains c = sc'.ignored.contains c := by
  obtain ⟨rfl, rfl⟩ | rfl | ⟨rfl, hd, hh, t, v, hsc⟩ := more_round hs hu h
  · exact hi c
  · rfl
  · rw [hi c]
    rcases hy with hy | hy
    · have hstay : ∀ e ∈ (hd.call t v host).effects, e.stays = true := by
        refine hy sc.state hd ?_ t v host
        rw [show sc.rules.onError.getD sc.state none = sc.onError from congrArg Scanner.onError hs]
        exact hh
      rw [hsc, ignored_performAll hstay]
    · have hnow : sc.rules.ignored.getD sc.state "" = sc.ignored := congrArg Scanner.ignored hs
      have hlater : sc'.rules.ignored.getD sc'.state "" = sc'.ignored := congrArg Scanner.ignored (hk.settled hs)
      rw [← hnow, ← hlater, hk.rules]
      exact hy _ _ c

lemma attentive_of_steady {ok : Scanner V σ → σ → Prop} (hkeep : ∀ sc host, Keeps sc (next sc host).scanner)
    (hok : ∀ sc' host', Keeps sc sc' → ok sc' host') (n : Nat) (hi : ∀ c : Char, ignored.contains c = sc.ignored.contains c) :
    Attentive mk next ok w n position ignored sc host := by
  induction n generalizing position ignored sc host with
  | zero => trivial
  | succ n ih =>
    rw [Attentive]
    split
    · refine ⟨?_, ?_⟩
      · simp only [stale, hi, bne_self_eq_false, Option.any_false]
      · have hround : Keeps sc (round mk next w position ignored sc host).scanner :=
          keeps_round hkeep w position ignored sc host
        split
        · trivial
        · rename_i p i sc' host' h
          rw [h] at hround
          exact ih (hround.settled hs) (hround.rules ▸ hu) (hround.rules ▸ hy)
            (fun sc₁ host₁ hk => hok sc₁ host₁ (hround.trans hk)) (ignored_more hs hu hy hi hround h)
    · intro h _ p hp
      exact hok p.1 p.2 ((Keeps.placed sc position sc.line).trans (Handler.keeps_fed hp))

lemma attentiveWithin_of_steady (steps depth : Nat) : AttentiveWithin mk steps depth sc host := by
  induction depth generalizing sc host with
  | zero => trivial
  | succ depth ih =>
    have hok : ∀ sc' host', Keeps sc sc' → AttentiveWithin mk steps depth sc' host' :=
      fun sc' host' hk => ih (hk.settled hs) (hk.rules ▸ hu) (hk.rules ▸ hy)
    rw [AttentiveWithin]
    split
    · intro _ h _ p hp
      exact hok p.1 p.2 ((Keeps.placed sc sc.position sc.line).trans (Handler.keeps_fed hp))
    · exact attentive_of_steady hs hu hy (keeps_tokenWithin mk steps depth) hok steps fun _ => rfl

lemma attentiveAll_of_steady {limits : Limits} (n : Nat) : AttentiveAll mk limits n sc host := by
  induction n generalizing sc host with
  | zero => trivial
  | succ n ih =>
    have hkeep : Keeps sc (token mk limits sc host).scanner := keeps_tokenWithin mk limits.steps limits.depth sc host
    refine ⟨attentiveWithin_of_steady hs hu hy _ _, ?_⟩
    split
    · exact ih (hkeep.settled hs) (hkeep.rules ▸ hu) (hkeep.rules ▸ hy)
    · trivial

end Steady

/-- The tokens, the errors and what handlers do are those of scanning with the rules of the current state, as long as no
character is met that only the current state or only the scanner ignores. That never happens if handlers of illegal
characters stay in their state, or if all states ignore the same characters. -/
theorem tokens_eq_fresh {ds : Declarations (Handler V σ)} {opts : BuildOptions} {built : Built V σ} {logs : Logs}
    (hb : build ds opts = (.ok built, logs)) (hu : built.scanner.rules.Unfed) (mk : Maker V) (limits : Limits) (n : Nat)
    (text : List Char) (host : σ) :
    (AttentiveAll mk limits n (built.scanner.input text) host →
      tokens mk limits n (built.scanner.input text) host = freshTokens mk limits n (built.scanner.input text) host) ∧
    (built.scanner.rules.Steady → AttentiveAll mk limits n (built.scanner.input text) host) := by
  have hs : (built.scanner.input text).Settled := (Keeps.input built.scanner text).settled (settled_of_build hb)
  exact ⟨tokens_eq_freshTokens n hs hu, fun hy => attentiveAll_of_steady hs hu hy n⟩

section Escaping

def verbatim : Maker String := ⟨id⟩

def silently (name : String) (line : Int) (effects : List (Effect String String)) : Routine (Handler String String) :=
  ⟨name, none, line, 1, false, .always ⟨effects, .drop⟩⟩

/-- An illegal character leads to a state that ignores hyphens and notes what is illegal in it. -/
def escaping : Declarations (Handler String String) where
  file := "escaping"
  attributes :=
    [("states", .value (.list [.tuple [.text "s", .text "exclusive"]])), ("t_A", .value (.text "a")),
      ("t_error", .routine (silently "t_error" 1 [.begin "s", .skip 1])), ("t_s_A", .value (.text "a")),
      ("t_s_error", .routine (silently "t_s_error" 2 [.edit fun t out => (.ok t, out ++ t.value), .skip 1])),
      ("t_s_ignore", .value (.text "-")), ("tokens", .value (.list [.text "A"]))]
  source := none

def letterRule (name : String) : Master String String :=
  ⟨"(?P<" ++ name ++ ">a)", ⟨.group 1 (.char 'a'), [(name, 1)], false⟩, [(1, .token "A")], [name]⟩

def escapingRules : Rules String String where
  masters := ⟨[("INITIAL", [letterRule "t_A"]), ("s", [letterRule "t_s_A"])]⟩
  ignored := ⟨[("s", "-"), ("INITIAL", "")]⟩
  onError := ⟨[("INITIAL", some (.always ⟨[.begin "s", .skip 1], .drop⟩)),
    ("s", some (.always ⟨[.edit fun t out => (.ok t, out ++ t.value), .skip 1], .drop⟩))]⟩
  onEnd := {}
  literals := ""

set_option maxRecDepth 10000 in
lemma build_escaping : build escaping {} =
    (.ok ⟨Build.start escapingRules, ["INITIAL", "s"], ["A"]⟩, (build escaping {}).2) :=
  Prod.ext (by rfl) rfl

theorem tokens_eq_fresh_escaping : build escaping {} =
    (.ok ⟨Build.start escapingRules, ["INITIAL", "s"], ["A"]⟩, (build escaping {}).2) ∧ escapingRules.Unfed ∧
    AttentiveAll verbatim ⟨10, 2⟩ 5 ((Build.start escapingRules).input "!a-a".toList) "" ∧
    tokens verbatim ⟨10, 2⟩ 5 ((Build.start escapingRules).input "!a-a".toList) "" =
      freshTokens verbatim ⟨10, 2⟩ 5 ((Build.start escapingRules).input "!a-a".toList) "" := by
  have hu : escapingRules.Unfed := by
    constructor
    · simp [escapingRules, Registry.values, letterRule]
    · simp [escapingRules, Registry.values, Handler.Unfed, Handler.always, Script.feeds]
  have ha : AttentiveAll verbatim ⟨10, 2⟩ 5 ((Build.start escapingRules).input "!a-a".toList) "" := by
    apply of_decide_eq_true
    cbv
  exact ⟨build_escaping, hu, ha, (tokens_eq_fresh build_escaping hu verbatim ⟨10, 2⟩ 5 "!a-a".toList "").1 ha⟩

/-- A hyphen right after the illegal character is illegal itself, although the state that was entered ignores it. -/
theorem hyphen_not_ignored : (build escaping {}).1 = .ok ⟨Build.start escapingRules, ["INITIAL", "s"], ["A"]⟩ ∧
    (tokens verbatim ⟨10, 2⟩ 5 ((Build.start escapingRules).input "!-a".toList) "").2.2.2 = "-a" ∧
    (freshTokens verbatim ⟨10, 2⟩ 5 ((Build.start escapingRules).input "!-a".toList) "").2.2.2 = "" := by
  refine ⟨congrArg Prod.fst build_escaping, ?_, ?_⟩
  · cbv
  · cbv

end Escaping

section Inheriting

def inheriting : Declarations (Handler String String) where
  file := "inheriting"
  attributes :=
    [("states", .value (.list [.tuple [.text "s", .text "inclusive"]])), ("t_A", .value (.text "a")),
      ("t_error", .routine (silently "t_error" 1 [.skip 1])), ("t_s_B", .value (.text "b")),
      ("tokens", .value (.list [.text "A", .text "B"]))]
  source := none

def oneLetter (c : Char) (name type : String) : Master String String :=
  ⟨"(?P<" ++ name ++ ">" ++ String.singleton c ++ ")", ⟨.group 1 (.char c), [(name, 1)], false⟩, [(1, .token type)], [name]⟩

def inheritingRules : Rules String String where
  masters := ⟨[("INITIAL", [oneLetter 'a' "t_A" "A"]), ("s", [oneLetter 'b' "t_s_B" "B", oneLetter 'a' "t_A" "A"])]⟩
  ignored := ⟨[("INITIAL", ""), ("s", "")]⟩
  onError := ⟨[("INITIAL", some (.always ⟨[.skip 1], .drop⟩)), ("s", some (.always ⟨[.skip 1], .drop⟩))]⟩
  onEnd := {}
  literals := ""

set_option maxRecDepth 10000 in
lemma build_inheriting : (build inheriting {}).1 = .ok ⟨Build.start inheritingRules, ["INITIAL", "s"], ["A", "B"]⟩ := by
  rfl

def foundIn (state text : String) (sc : Scanner String String) : Except ScanError (Option (Token String)) := do
  let sc ← sc.begin state
  (token verbatim ⟨10, 2⟩ (sc.input text.toList) "").result

/-- The copy has lost the rule of the inclusive state: what that rule matched is illegal. -/
theorem rebound_loses_rule : (build inheriting {}).1 = .ok ⟨Build.start inheritingRules, ["INITIAL", "s"], ["A", "B"]⟩ ∧
    foundIn "s" "b" (Build.start inheritingRules) = .ok (some ⟨"B", "b", 1, 0⟩) ∧
    ∃ copy, (Build.start inheritingRules).rebound = .ok copy ∧ foundIn "s" "b" copy = .ok none := by
  refine ⟨build_inheriting, ?_, _, rfl, ?_⟩
  · cbv
  · cbv

end Inheriting

end LispKit.Scanner
