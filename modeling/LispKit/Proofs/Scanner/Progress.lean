import LispKit.Proofs.Scanner.Priority

/-! Progress: every call for a token ends, and every token lies further on than the one before. -/

namespace LispKit.Scanner

open List Option

variable {V σ : Type} {mk : Maker V} {next : Scanner V σ → σ → Outcome V σ}

section Positive

variable {ds : Declarations (Handler V σ)} {opts : BuildOptions} {built : Built V σ} {logs : Logs} {d : Declared V σ}
  {all : List (String × List (Master V σ))} {position length : Nat} {rest : List Char}
  {target : Except Fault (Target V σ)} {state : String}

lemma own_empty {r : Rule V σ} (hr : r.Alone opts.flags) (hpass : Declared.Passes opts.flags r.name r.pattern) :
    r.own opts.flags 0 [] = none := by
  obtain ⟨c, hc, hempty⟩ := hpass
  obtain ⟨numbers, hall, -, hmatch⟩ := compile_rules (cons_ne_nil r []) (by simpa using hr) hc
  obtain ⟨n, _, -, hnil, rfl⟩ := forall₂_cons_left_iff.mp hall
  -- The check was made on the pattern as a group, which matches what the pattern matches for itself.
  simpa [hmatch] using hempty

lemma length_pos_of_master {rules : List (Rule V σ)} {m : Master V σ} {f : Pattern.Match}
    (hr : ∀ r ∈ rules, r.Alone opts.flags ∧ r.own opts.flags 0 [] = none) (hne : rules ≠ [])
    (hm : Build.master? ds d.tokenNames (Pattern.compile? opts.flags) (rules.map Rule.text) = some m)
    (h : m.compiled.match? position rest = some f) : 0 < f.length := by
  obtain ⟨htext, hcompile, -⟩ := of_master? hm
  rw [htext, compile?_eq_some] at hcompile
  obtain ⟨numbers, -, -, hmatch⟩ := compile_rules hne (fun r hr' => (hr r hr').1) hcompile
  refine Pattern.length_pos_of_match? ((hmatch 0 []).trans (findSome?_eq_none_iff.mpr fun e he => ?_)) h
  rw [(hr e.1 (of_mem_zip he).1).2, map_none]

lemma length_pos_of_masters {rules : List (Rule V σ)} {ms : List (Master V σ)} {fuel : Nat}
    (hr : ∀ r ∈ rules, r.Alone opts.flags ∧ r.own opts.flags 0 [] = none)
    (hms : Build.masters ds d.tokenNames (Pattern.compile? opts.flags) fuel (rules.map Rule.text) = .ok ms)
    (h : firstMatch position rest ms = some (length, target)) : 0 < length := by
  have hdivided := divided_of_masters hms
  clear hms
  generalize htexts : rules.map Rule.text = groups at hdivided
  induction hdivided generalizing rules with
  | nil => cases h
  | @whole _ m hne hm =>
    subst htexts
    rw [firstMatch] at h
    cases hf : m.compiled.match? position rest with
    | none =>
      rw [hf] at h
      cases h
    | some f =>
      rw [hf] at h
      obtain ⟨rfl, -⟩ := Prod.mk.inj (Option.some.inj h)
      exact length_pos_of_master hr (by simpa using hne) hm hf
  | halves _ _ ihleft ihright =>
    obtain ⟨rules, rules', rfl, rfl, rfl⟩ := map_eq_append_iff.mp htexts
    obtain ⟨hr, hr'⟩ := forall_mem_append.mp hr
    rw [firstMatch_append, or_eq_some_iff] at h
    exact h.elim (ihleft hr · rfl) fun h => ihright hr' h.2 rfl

lemma length_pos_of_own (hp : Parts ds opts built d all) (hn : WellNamed ds) (hs : state ∈ stateNames ds)
    (hread : ∀ r ∈ ownRules ds state, r.Legible opts.flags)
    (h : firstMatch position rest ((⟨all⟩ : Registry String (List (Master V σ))).getD state []) = some (length, target)) :
    0 < length := by
  have hd := hp.reads
  obtain ⟨ms, hget, hms⟩ := own_masters hp ((stateNames_eq hd).symm ▸ hs)
  rw [Registry.getD, hget] at h
  rw [ruleTexts_eq hd, List.map_map] at hms
  refine length_pos_of_masters (fun r hr => ?_) hms h
  have hpass := passes_of_parts hp hs hr
  have halone : r.Alone opts.flags := by
    obtain ⟨a, ha⟩ := attribute_of_ownRules hr
    obtain ⟨c, hc, -⟩ := hpass
    exact ⟨hn.names _ ha, hread r hr, c, hc⟩
  exact ⟨halone, own_empty halone hpass⟩

lemma keys_masters (hp : Parts ds opts built d all) : all.map Prod.fst = d.states.keys := by
  have hall := hp.masters
  clear hp
  generalize d.states.keys = keys at hall
  induction hall with
  | nil => rfl
  | cons he _ ih => rw [map_cons, he.1, ih]

lemma length_pos_of_firstMatch (hb : build ds opts = (.ok built, logs)) (hn : WellNamed ds)
    (hread : ∀ s ∈ built.states, ∀ r ∈ ownRules ds s, r.Legible opts.flags)
    (h : firstMatch position rest (built.scanner.rules.masters.getD state []) = some (length, target)) : 0 < length := by
  obtain ⟨d, all, hp⟩ := parts_of_build hb
  have hd := hp.reads
  rw [hp.states, stateNames_eq hd] at hread
  rw [hp.scanner] at h
  change firstMatch position rest ((Build.extendMasters d ⟨all⟩).getD state []) = _ at h
  rw [Registry.getD, get?_extendMasters] at h
  cases hget : (⟨all⟩ : Registry String (List (Master V σ))).get? state with
  | none =>
    rw [hget] at h
    cases h
  | some ms =>
    rw [hget, map_some, getD_some] at h
    have hs : state ∈ stateNames ds := by
      obtain ⟨e, he, hkey, -⟩ := Registry.mem_of_get? hget
      rw [← stateNames_eq hd, ← keys_masters hp, ← eq_of_beq hkey]
      exact mem_map.mpr ⟨e, he, rfl⟩
    have hown : ∀ {k}, firstMatch position rest ms = some (k, target) → 0 < k := by
      intro k hk
      exact length_pos_of_own hp hn hs (hread _ hs) (by rwa [Registry.getD, hget])
    split at h
    · rw [firstMatch_append, or_eq_some_iff] at h
      rcases h with h | ⟨-, h⟩
      · exact hown h
      · have hinitial : initialState ∈ stateNames ds := mem_cons_self
        exact length_pos_of_own hp hn hinitial (hread _ hinitial) h
    · exact hown h

end Positive

section Forward

def Effect.Forward : Effect V σ → Prop
  | edit f => ∀ t host t', (f t host).1 = .ok t' → t'.position = t.position
  | skip n => 0 ≤ n
  | _ => True

structure Handler.Forward (h : Handler V σ) : Prop where
  unfed : h.Unfed
  effects : ∀ t v host, ∀ e ∈ (h.call t v host).effects, e.Forward

/-- All handlers only move on, and there is none of the end. -/
structure Rules.Forward (rules : Rules V σ) : Prop where
  matched : ∀ ms ∈ rules.masters.values, ∀ m ∈ ms, ∀ n type h, (n, .handled type h) ∈ m.targets → h.Forward
  illegal : ∀ o ∈ rules.onError.values, ∀ h ∈ o, h.Forward
  ended : rules.onEnd.entries = []

lemma Rules.Forward.unfed {rules : Rules V σ} (hf : rules.Forward) : rules.Unfed := by
  exact ⟨fun ms hms m hm n type h ht => (hf.matched ms hms m hm n type h ht).unfed,
    fun o ho h hh => (hf.illegal o ho h hh).unfed⟩

structure Onward (sc sc' : Scanner V σ) : Prop where
  text : sc'.text = sc.text
  length : sc'.length = sc.length
  position : sc.position ≤ sc'.position

namespace Onward

lemma refl (sc : Scanner V σ) : Onward sc sc :=
  ⟨rfl, rfl, Int.le_refl _⟩

lemma trans {a b c : Scanner V σ} (h : Onward a b) (h' : Onward b c) : Onward a c :=
  ⟨h'.text.trans h.text, h'.length.trans h.length, Int.le_trans h.position h'.position⟩

lemma placed {sc : Scanner V σ} {position : Int} (h : sc.position ≤ position) :
    Onward sc { sc with position := position } :=
  ⟨rfl, rfl, h⟩

lemma of_begin {sc sc' : Scanner V σ} {state : String} (h : sc.begin state = .ok sc') : Onward sc sc' := by
  rw [begin_eq] at h
  split at h
  · obtain rfl := Except.ok.inj h
    exact ⟨rfl, rfl, Int.le_refl _⟩
  · cases h

end Onward

lemma onward_push (sc : Scanner V σ) (state : String) : Onward sc (sc.push state).2 := by
  rw [push]
  split
  · rename_i h
    have hbegin := Onward.of_begin h
    exact ⟨hbegin.text, hbegin.length, hbegin.position⟩
  · exact ⟨rfl, rfl, Int.le_refl _⟩

lemma onward_pop (sc : Scanner V σ) : Onward sc sc.pop.2 := by
  rw [pop]
  split
  · exact .refl sc
  · dsimp only
    split
    · rename_i h
      have hbegin := Onward.of_begin h
      exact ⟨hbegin.text, hbegin.length, hbegin.position⟩
    · exact ⟨rfl, rfl, Int.le_refl _⟩

lemma forward_perform {e : Effect V σ} (he : e.Forward) (t : Token V) (sc : Scanner V σ) (host : σ) :
    Onward sc (e.perform t sc host).2.1 ∧ ∀ t', (e.perform t sc host).1 = .ok t' → t'.position = t.position := by
  have hsame : ∀ t' : Token V, (.ok t : Except ScanError (Token V)) = .ok t' → t'.position = t.position := by
    rintro t' ⟨⟩
    rfl
  have hmap : ∀ (r : Except ScanError Unit) (t' : Token V), (r.map fun _ => t) = .ok t' → t'.position = t.position := by
    rintro (e | _) t' ⟨⟩
    rfl
  cases e with
  | edit f =>
    have hedit := he t host
    rw [Effect.perform]
    split
    · rename_i t' host' h
      refine ⟨.refl sc, ?_⟩
      rintro _ ⟨⟩
      exact hedit t' (congrArg Prod.fst h)
    · exact ⟨.refl sc, fun _ h => by cases h⟩
  | countLines f =>
    rw [Effect.perform]
    split
    · exact ⟨⟨rfl, rfl, Int.le_refl _⟩, hsame⟩
    · exact ⟨.refl sc, fun _ h => by cases h⟩
  | begin state =>
    rw [Effect.perform]
    split
    · rename_i h
      exact ⟨.of_begin h, hsame⟩
    · exact ⟨.refl sc, fun _ h => by cases h⟩
  | push state => exact ⟨onward_push sc state, hmap _⟩
  | pop => exact ⟨onward_pop sc, hmap _⟩
  | skip n => exact ⟨⟨rfl, rfl, Int.le_add_of_nonneg_right he⟩, hsame⟩

lemma forward_performAll {es : List (Effect V σ)} (hes : ∀ e ∈ es, e.Forward) (t : Token V) (sc : Scanner V σ) (host : σ) :
    Onward sc (performAll es t sc host).2.1 ∧ ∀ t', (performAll es t sc host).1 = .ok t' → t'.position = t.position := by
  induction es generalizing t sc host with
  | nil =>
    refine ⟨.refl sc, ?_⟩
    rintro t' ⟨⟩
    rfl
  | cons e es ih =>
    obtain ⟨he, hes⟩ := forall_mem_cons.mp hes
    obtain ⟨honward, hposition⟩ := forward_perform he t sc host
    rw [performAll]
    split
    · rename_i t₁ sc₁ host₁ h
      rw [h] at honward hposition
      obtain ⟨honward', hposition'⟩ := ih hes t₁ sc₁ host₁
      exact ⟨honward.trans honward', fun t' ht' => (hposition' t' ht').trans (hposition t₁ rfl)⟩
    · rename_i h
      rw [h] at honward
      exact ⟨honward, fun _ h => by cases h⟩

lemma forward_run (next : Scanner V σ → σ → Outcome V σ) {h : Handler V σ} (hf : h.Forward) (t : Token V)
    (sc : Scanner V σ) (host : σ) : Onward sc (h.run next t sc host).scanner ∧
      ∀ t', (h.run next t sc host).result = .ok (some t') → t'.position = t.position := by
  obtain ⟨honward, hposition⟩ := forward_performAll (hf.effects t sc.situation host) t sc host
  refine ⟨scanner_run_of_unfed hf.unfed t sc host ▸ honward, fun t' ht' => hposition t' ?_⟩
  have hunfed := hf.unfed t sc.situation host
  rw [Handler.run, Script.run] at ht'
  generalize h.call t sc.situation host = s at hunfed ht' ⊢
  generalize performAll s.effects t sc host = r at ht' ⊢
  rcases r with ⟨e | t₁, sc₁, host₁⟩
  · cases ht'
  · cases he : s.ending with
    | keep =>
      rw [he] at ht'
      cases ht'
      rfl
    | drop =>
      rw [he] at ht'
      cases ht'
    | feed text => simp [Script.feeds, he] at hunfed

end Forward

section Rounds

structure Productive (sc : Scanner V σ) : Prop where
  settled : sc.Settled
  forward : sc.rules.Forward
  positive : ∀ {state position rest length target},
    firstMatch position rest (sc.rules.masters.getD state []) = some (length, target) → 0 < length

lemma Productive.keeps {sc sc' : Scanner V σ} (hp : sc.Productive) (hk : Keeps sc sc') : sc'.Productive :=
  ⟨hk.settled hp.settled, hk.rules ▸ hp.forward, hk.rules ▸ hp.positive⟩

lemma Productive.length_pos {sc : Scanner V σ} (hp : sc.Productive) {position length : Nat} {rest : List Char}
    {target : Except Fault (Target V σ)} (h : firstMatch position rest sc.masters = some (length, target)) : 0 < length := by
  have hmasters : sc.rules.masters.getD sc.state [] = sc.masters := congrArg Scanner.masters hp.settled
  rw [← hmasters] at h
  exact hp.positive h

def Round.Progresses (position : Int) (sc : Scanner V σ) : Round V σ → Prop
  | more p _ sc' _ => position < p ∧ Onward sc sc' ∧ sc'.position ≤ p
  | done o => Onward sc o.scanner ∧ o.result ≠ .ok none ∧
      ∀ t, o.result = .ok (some t) → t.position = position ∧ position < o.scanner.position

variable {sc : Scanner V σ} {position : Int}

lemma progresses_afterHandler {o : Outcome V σ} (f : Scanner V σ → String) (ho : Onward sc o.scanner)
    (hlt : position < o.scanner.position) (ht : ∀ t, o.result = .ok (some t) → t.position = position) :
    (afterHandler o f).Progresses position sc := by
  rw [afterHandler]
  split
  · exact ⟨hlt, ho, Int.le_refl _⟩
  · rename_i hne
    exact ⟨ho, hne, fun t h => ⟨ht t h, hlt⟩⟩

variable (hp : sc.Productive) (hle : sc.position ≤ position)

include hp hle

lemma progresses_illegal (c : Char) (ignored : String) (host : σ) :
    (illegal mk next c position ignored sc host).Progresses position sc := by
  have hplaced := Onward.placed hle
  unfold illegal
  dsimp only
  split
  · exact ⟨hplaced, fun h => (by cases h), fun _ h => by cases h⟩
  · rename_i h hh
    have hf : h.Forward := hp.forward.illegal _ (mem_onError hp.settled hh) h rfl
    generalize hrun : h.run next _ _ host = o
    obtain ⟨honward, hposition⟩ : Onward { sc with position := position } o.scanner ∧
        ∀ t, o.result = .ok (some t) → t.position = position := hrun ▸ forward_run next hf _ _ host
    split
    · rename_i he
      rw [Round.Progresses, he]
      exact ⟨hplaced.trans honward, fun h => (by cases h), fun _ h => by cases h⟩
    · split
      · exact ⟨hplaced.trans honward, fun h => (by cases h), fun _ h => by cases h⟩
      · rename_i hne
        have hle' : position ≤ o.scanner.position := honward.position
        exact progresses_afterHandler _ (hplaced.trans honward) (by omega) hposition

lemma progresses_round (w : Window) (h0 : 0 ≤ position) (ignored : String) (host : σ) :
    (round mk next w position ignored sc host).Progresses position sc := by
  unfold round
  split
  · exact ⟨.refl sc, fun h => (by cases h), fun _ h => by cases h⟩
  · split
    · exact ⟨.refl sc, fun h => (by cases h), fun _ h => by cases h⟩
    · split
      · exact ⟨by omega, .refl sc, by omega⟩
      · dsimp only
        split
        · rename_i length target hfirst
          have hlength := hp.length_pos hfirst
          have hplaced : Onward sc { sc with position := (position.toNat : Int) + length } := .placed (by omega)
          rcases target with f | _ | type | ⟨type, h⟩
          · exact ⟨.refl sc, fun h => (by cases h), fun _ h => by cases h⟩
          · exact ⟨by omega, .refl sc, by omega⟩
          · refine ⟨hplaced, fun h => (by cases h), ?_⟩
            rintro t ⟨⟩
            exact ⟨rfl, by dsimp only; omega⟩
          · obtain ⟨ms, hms, m, hm, n, hn⟩ := mem_targets_of_firstMatch hp.settled hfirst
            have hf : h.Forward := hp.forward.matched ms hms m hm n type h hn
            rw [matched]
            generalize hrun : h.run next _ _ host = o
            obtain ⟨honward, hposition⟩ : Onward { sc with position := (position.toNat : Int) + length } o.scanner ∧
                ∀ t, o.result = .ok (some t) → t.position = position := hrun ▸ forward_run next hf _ _ host
            have hle' : (position.toNat : Int) + length ≤ o.scanner.position := honward.position
            exact progresses_afterHandler _ (hplaced.trans honward) (by omega) hposition
        · split
          · refine ⟨.placed (by omega), fun h => (by cases h), ?_⟩
            rintro t ⟨⟩
            exact ⟨rfl, by dsimp only; omega⟩
          · exact progresses_illegal hp hle _ ignored host

end Rounds

section Calls

variable (mk) {sc sc' : Scanner V σ} {text : List Char}

/-- What scanning from a place comes to if no text is fed: rounds as many as there are, up to the first that is the last
one or to the end of the input. -/
inductive Scans (w : Window) : Int → String → Scanner V σ → σ → Outcome V σ → Prop
  | atEnd {position : Int} {ignored : String} {sc : Scanner V σ} {host : σ} {o : Outcome V σ} :
      w.length ≤ position → (∀ next, Scanner.atEnd mk next position sc host = o) → Scans w position ignored sc host o
  | done {position : Int} {ignored : String} {sc : Scanner V σ} {host : σ} {o : Outcome V σ} :
      position < w.length → (∀ next, round mk next w position ignored sc host = .done o) →
      Scans w position ignored sc host o
  | more {position p : Int} {ignored i : String} {sc sc' : Scanner V σ} {host host' : σ} {o : Outcome V σ} :
      position < w.length → (∀ next, round mk next w position ignored sc host = .more p i sc' host') →
      Scans w p i sc' host' o → Scans w position ignored sc host o

/-- What a call for a token comes to. -/
def Finds (sc : Scanner V σ) (host : σ) (o : Outcome V σ) : Prop :=
  ∃ text, sc.text = some text ∧ Scans mk ⟨text, sc.length⟩ sc.position sc.ignored sc host o

/-- Calls for tokens up to the end of the input or to an error: the tokens that they find, and how they end. -/
inductive Reads : Scanner V σ → σ → List (Token V) → Except ScanError Unit → Scanner V σ → σ → Prop
  | failed {sc sc' : Scanner V σ} {host host' : σ} {e : ScanError} :
      Finds mk sc host ⟨.error e, sc', host'⟩ → Reads sc host [] (.error e) sc' host'
  | ended {sc sc' : Scanner V σ} {host host' : σ} :
      Finds mk sc host ⟨.ok none, sc', host'⟩ → Reads sc host [] (.ok ()) sc' host'
  | found {sc sc₁ sc' : Scanner V σ} {host host₁ host' : σ} {t : Token V} {ts : List (Token V)}
      {r : Except ScanError Unit} :
      Finds mk sc host ⟨.ok (some t), sc₁, host₁⟩ → Reads sc₁ host₁ ts r sc' host' → Reads sc host (t :: ts) r sc' host'

/-- A token lies in the part of the text from a place on, and the scanner stands behind its place afterwards; without a
token and without an error the whole text has been read. -/
structure Outcome.Progresses (length : Nat) (position : Int) (sc : Scanner V σ) (o : Outcome V σ) : Prop where
  keeps : Keeps sc o.scanner
  onward : Onward sc o.scanner
  token : ∀ t, o.result = .ok (some t) → position ≤ t.position ∧ t.position < length ∧ t.position < o.scanner.position
  ended : o.result = .ok none → length < o.scanner.position

lemma onEnd_eq_none (hp : sc.Productive) : sc.onEnd = none := by
  rw [← hp.settled, refreshed]
  dsimp only
  rw [Registry.get?, hp.forward.ended]
  rfl

lemma exists_scans (w : Window) {position : Int} (ignored : String) (hp : sc.Productive) (h0 : 0 ≤ sc.position)
    (hle : sc.position ≤ position) (htext : sc.text.isSome) (host : σ) :
    ∃ o, Scans mk w position ignored sc host o ∧ o.Progresses w.length position sc ∧
      ∀ next (n : Nat), w.length - position < n → 0 < n → rounds mk next w n position ignored sc host = o := by
  induction hm : (w.length - position).toNat using Nat.strong_induction_on generalizing position ignored sc host with
  | h m ih =>
    by_cases hlt : position < w.length
    · have hcongr : ∀ next, round mk next w position ignored sc host =
          round mk (fun sc host => ⟨.ok none, sc, host⟩) w position ignored sc host :=
        fun next => round_congr hp.settled hp.forward.unfed
      have hkeeps : Keeps sc (round mk (fun sc host => ⟨.ok none, sc, host⟩) w position ignored sc host).scanner :=
        keeps_round (fun sc _ => .refl sc) w position ignored sc host
      have hround : (round mk (fun sc host => ⟨.ok none, sc, host⟩) w position ignored sc host).Progresses position sc :=
        progresses_round hp hle w (h0.trans hle) ignored host
      generalize round mk (fun sc host => ⟨.ok none, sc, host⟩) w position ignored sc host = r at hcongr hkeeps hround
      cases r with
      | done o =>
        obtain ⟨honward, hne, htoken⟩ := hround
        refine ⟨o, .done hlt hcongr, ⟨hkeeps, honward, fun t ht => ?_, fun h => (hne h).elim⟩, fun next n _ hn => ?_⟩
        · obtain ⟨hposition, hbehind⟩ := htoken t ht
          omega
        · obtain ⟨n, rfl⟩ := Nat.exists_eq_add_one_of_ne_zero hn.ne'
          rw [rounds, if_pos hlt, hcongr next]
      | more p i sc' host' =>
        obtain ⟨hmore, honward, hle'⟩ := hround
        have hkeeps : Keeps sc sc' := hkeeps
        have hposition := honward.position
        obtain ⟨o, hscans, ho, hrounds⟩ := ih (w.length - p).toNat (by omega) i (hp.keeps hkeeps) (by omega) hle'
          (honward.text ▸ htext) host' rfl
        refine ⟨o, .more hlt hcongr hscans, ⟨hkeeps.trans ho.keeps, honward.trans ho.onward, fun t ht => ?_, ho.ended⟩,
          fun next n hn hpos => ?_⟩
        · have htoken := ho.token t ht
          omega
        · obtain ⟨n, rfl⟩ := Nat.exists_eq_add_one_of_ne_zero hpos.ne'
          rw [rounds, if_pos hlt, hcongr next]
          exact hrounds next n (by omega) (by omega)
    · have hend : ∀ next, Scanner.atEnd mk next position sc host = ⟨.ok none, { sc with position := position + 1 }, host⟩ := by
        intro next
        obtain ⟨text, htext⟩ := isSome_iff_exists.mp htext
        simp only [Scanner.atEnd, onEnd_eq_none hp, htext, isNone_some, Bool.false_eq_true, if_false]
      refine ⟨_, .atEnd (by omega) hend, ⟨.placed sc _ sc.line, .placed (by omega), fun _ h => (by cases h), fun _ => ?_⟩, fun next n _ hn => ?_⟩
      · dsimp only
        omega
      · obtain ⟨n, rfl⟩ := Nat.exists_eq_add_one_of_ne_zero hn.ne'
        rw [rounds, if_neg hlt, hend next]

structure Inside (chars : List Char) (sc : Scanner V σ) : Prop where
  text : sc.text = some chars
  length : sc.length = chars.length
  position : 0 ≤ sc.position

lemma Inside.onward (hi : Inside text sc) (h : Onward sc sc') : Inside text sc' :=
  ⟨h.text.trans hi.text, h.length.trans hi.length, hi.position.trans h.position⟩

lemma inside_input (sc : Scanner V σ) (text : List Char) : Inside text (sc.input text) :=
  ⟨rfl, rfl, Int.le_refl 0⟩

lemma exists_finds (hp : sc.Productive) (hi : Inside text sc) (host : σ) :
    ∃ o, Finds mk sc host o ∧ o.Progresses text.length sc.position sc ∧
      ∀ limits : Limits, text.length < limits.steps → 0 < limits.depth → token mk limits sc host = o := by
  have hposition := hi.position
  obtain ⟨o, hscans, ho, hrounds⟩ := exists_scans mk ⟨text, sc.length⟩ sc.ignored hp hi.position (Int.le_refl _)
    (hi.text ▸ rfl) host
  refine ⟨o, ⟨text, hi.text, hscans⟩, hi.length ▸ ho, fun limits hsteps hdepth => ?_⟩
  obtain ⟨depth, hdepth⟩ := Nat.exists_eq_add_one_of_ne_zero hdepth.ne'
  rw [token, hdepth, tokenWithin, hi.text]
  refine hrounds _ limits.steps ?_ (by omega)
  dsimp only
  rw [hi.length]
  omega

lemma exists_reads (hp : sc.Productive) (hi : Inside text sc) (host : σ) :
    ∃ ts r sc' host', Reads mk sc host ts r sc' host' ∧ (∀ t ∈ ts, sc.position ≤ t.position) ∧
      ts.Pairwise (fun t u => t.position < u.position) ∧ ts.length ≤ (text.length - sc.position).toNat ∧
      (r = .ok () → text.length < sc'.position) ∧
      ∀ (limits : Limits) (n : Nat), text.length < limits.steps → 0 < limits.depth →
        (text.length - sc.position).toNat < n → tokens mk limits n sc host = (ts, r, sc', host') := by
  induction hm : (text.length - sc.position).toNat using Nat.strong_induction_on generalizing sc host with
  | h m ih =>
    obtain ⟨⟨result, sc₁, host₁⟩, hfinds, ho, htoken⟩ := exists_finds mk hp hi host
    rcases result with e | _ | t
    · refine ⟨[], .error e, sc₁, host₁, .failed hfinds, nofun, .nil, Nat.zero_le _, nofun, fun limits n hs hd hn => ?_⟩
      obtain ⟨n, rfl⟩ := Nat.exists_eq_add_one_of_ne_zero (Nat.ne_zero_of_lt hn)
      rw [tokens, htoken limits hs hd]
    · refine ⟨[], .ok (), sc₁, host₁, .ended hfinds, nofun, .nil, Nat.zero_le _, fun _ => ho.ended rfl,
        fun limits n hs hd hn => ?_⟩
      obtain ⟨n, rfl⟩ := Nat.exists_eq_add_one_of_ne_zero (Nat.ne_zero_of_lt hn)
      rw [tokens, htoken limits hs hd]
    · obtain ⟨hfrom, hinside, hbehind⟩ := ho.token t rfl
      dsimp only at hbehind
      obtain ⟨ts, r, sc', host', hreads, hall, hpairwise, hlength, hended, htokens⟩ :=
        ih (text.length - sc₁.position).toNat (by omega) (hp.keeps ho.keeps) (hi.onward ho.onward) host₁ rfl
      have hbehind' : ∀ u ∈ ts, t.position < u.position := fun u hu => hbehind.trans_le (hall u hu)
      refine ⟨t :: ts, r, sc', host', .found hfinds hreads, ?_, .cons hbehind' hpairwise, ?_, hended,
        fun limits n hs hd hn => ?_⟩
      · exact forall_mem_cons.mpr ⟨hfrom, fun u hu => hfrom.trans (hbehind' u hu).le⟩
      · rw [length_cons]
        omega
      · obtain ⟨n, rfl⟩ := Nat.exists_eq_add_one_of_ne_zero (Nat.ne_zero_of_lt hn)
        rw [tokens, htoken limits hs hd]
        dsimp only
        rw [htokens limits n hs hd (by omega)]

end Calls

lemma productive_of_build {ds : Declarations (Handler V σ)} {opts : BuildOptions} {built : Built V σ} {logs : Logs}
    (hb : build ds opts = (.ok built, logs)) (hn : WellNamed ds)
    (hread : ∀ s ∈ built.states, ∀ r ∈ ownRules ds s, r.Legible opts.flags) (hf : built.scanner.rules.Forward) :
    built.scanner.Productive :=
  ⟨settled_of_build hb, hf, fun h => length_pos_of_firstMatch hb hn hread h⟩

/-- A scanner that could be built and whose handlers only move on makes progress on every text. Every call for a token
ends, wherever in the text the scanner stands; tokens lie one behind the other, so there are no more of them than
characters; and the calls end with an error or behind the last character. Bounds beyond the length of the text change
nothing. -/
theorem scanning_makes_progress {ds : Declarations (Handler V σ)} {opts : BuildOptions} {built : Built V σ} {logs : Logs}
    (hb : build ds opts = (.ok built, logs)) (hn : WellNamed ds)
    (hread : ∀ s ∈ built.states, ∀ r ∈ ownRules ds s, r.Legible opts.flags) (hf : built.scanner.rules.Forward)
    (mk : Maker V) (text : List Char) :
    (∀ sc host, Keeps built.scanner sc → Inside text sc → ∃ o, Finds mk sc host o ∧
      Keeps built.scanner o.scanner ∧ Inside text o.scanner ∧
      ∀ limits : Limits, text.length < limits.steps → 0 < limits.depth → token mk limits sc host = o) ∧
    ∀ host, ∃ ts r sc' host', Reads mk (built.scanner.input text) host ts r sc' host' ∧
      ts.Pairwise (fun t u => t.position < u.position) ∧ ts.length ≤ text.length ∧
      (r = .ok () → text.length < sc'.position) ∧
      ∀ (limits : Limits) (n : Nat), text.length < limits.steps → 0 < limits.depth → text.length < n →
        tokens mk limits n (built.scanner.input text) host = (ts, r, sc', host') := by
  have hp := productive_of_build hb hn hread hf
  refine ⟨fun sc host hk hi => ?_, fun host => ?_⟩
  · obtain ⟨o, hfinds, ho, htoken⟩ := exists_finds mk (hp.keeps hk) hi host
    exact ⟨o, hfinds, hk.trans ho.keeps, hi.onward ho.onward, htoken⟩
  · obtain ⟨ts, r, sc', host', hreads, -, hpairwise, hlength, hended, htokens⟩ :=
      exists_reads mk (hp.keeps (.input built.scanner text)) (inside_input built.scanner text) host
    have hstart : (text.length - (built.scanner.input text).position).toNat = text.length := by
      rw [input, Int.sub_zero, Int.toNat_natCast]
    rw [hstart] at hlength htokens
    exact ⟨ts, r, sc', host', hreads, hpairwise, hlength, hended, htokens⟩

lemma forward_escaping : escapingRules.Forward := by
  have hbegin : (Handler.always (V := String) (σ := String) ⟨[.begin "s", .skip 1], .drop⟩).Forward :=
    ⟨fun _ _ _ => rfl, by simp [Handler.always, Effect.Forward]⟩
  have hnote : (Handler.always (V := String) (σ := String)
      ⟨[.edit fun t out => (.ok t, out ++ t.value), .skip 1], .drop⟩).Forward := by
    refine ⟨fun _ _ _ => rfl, fun _ _ _ => ?_⟩
    simp only [Handler.always, forall_mem_cons, not_mem_nil, false_imp_iff, implies_true, and_true, Effect.Forward]
    refine ⟨?_, by decide⟩
    rintro t out _ ⟨⟩
    rfl
  refine ⟨?_, ?_, rfl⟩
  · simp [escapingRules, Registry.values, letterRule]
  · simp [escapingRules, Registry.values, hbegin, hnote]

lemma legible_escaping : ∀ s ∈ ["INITIAL", "s"], ∀ r ∈ ownRules escaping s, r.Legible { verbose := true } := by
  have hinitial : ownRules escaping "INITIAL" = [⟨"t_A", "a", "A", none⟩] := rfl
  have hs : ownRules escaping "s" = [⟨"t_s_A", "a", "A", none⟩] := rfl
  simp only [forall_mem_cons, not_mem_nil, false_imp_iff, implies_true, hinitial, hs, and_true]
  exact ⟨⟨_, rfl⟩, ⟨_, rfl⟩⟩

theorem progress_of_escaping : build escaping {} =
      (.ok ⟨Build.start escapingRules, ["INITIAL", "s"], ["A"]⟩, (build escaping {}).2) ∧
    WellNamed escaping ∧ (∀ s ∈ ["INITIAL", "s"], ∀ r ∈ ownRules escaping s, r.Legible { verbose := true }) ∧
    escapingRules.Forward ∧
    ∃ ts r sc' host', Reads verbatim ((Build.start escapingRules).input "!a-a".toList) "" ts r sc' host' ∧
      ts.Pairwise (fun t u => t.position < u.position) ∧ ts.map Token.position = [1, 3] := by
  have hn : WellNamed escaping := ⟨by decide, by decide⟩
  refine ⟨build_escaping, hn, legible_escaping, forward_escaping, ?_⟩
  obtain ⟨ts, r, sc', host', hreads, hpairwise, -, -, htokens⟩ :=
    (scanning_makes_progress build_escaping hn legible_escaping forward_escaping verbatim "!a-a".toList).2 ""
  refine ⟨ts, r, sc', host', hreads, hpairwise, ?_⟩
  have hpositions : (tokens verbatim ⟨10, 2⟩ 5 ((Build.start escapingRules).input "!a-a".toList) "").1.map Token.position =
      [1, 3] := by cbv
  rwa [htokens ⟨10, 2⟩ 5 (by decide) (by decide) (by decide)] at hpositions

end LispKit.Scanner
