import LispKit.Proofs.Parser.Shadow
import LispKit.Proofs.Parser.Sound

/-! A parser whose tables have no conflicts accepts every word that is derived from the start symbol, in every mode in
which its rules and tokens can be handled, and meets no error on the way. -/

set_option linter.unusedSectionVars false

namespace LispKit.Parser

open Vocabulary Collection Lookahead ParseTree List

variable {S V σ E : Type} [DecidableEq S] [Vocabulary S]

structure Fit (m : Mode) (s : StackSymbol S V) : Prop where
  value : m.tracing = true → ∃ v, s.value = some v
  line : m.tracking = true → ∃ n, s.line = some n
  position : m.tracking = true → ∃ n, s.position = some n

structure FitToken (m : Mode) (s : StackSymbol S V) : Prop extends Fit m s where
  fullLine : m.tracing = true → ∃ n, s.line = some n
  fullPosition : m.tracing = true → ∃ n, s.position = some n

def Host.Shows (h : Host S V σ E) (m : Mode) : Prop :=
  m.tracing = true → ∀ v, ∃ text, h.display v = .ok text

def RuleReply.Succeeds (m : Mode) : RuleReply S V E → Prop
  | .done s _ => Fit m s
  | _ => False

lemma RuleReply.Succeeds.isRaised {reply : RuleReply S V E} {m : Mode} (hs : reply.Succeeds m) :
    reply.isRaised = false := by
  cases reply with
  | done s recovered => rfl
  | raised => cases hs
  | failed e => rfl

inductive Coming (rest : σ → List (StackSymbol S V)) (c : Config S V (σ × Record S V E)) : List (StackSymbol S V) → Prop
  | unread : c.lookahead = none → Coming rest c (rest c.host.1)
  | token {s : StackSymbol S V} : c.lookahead = some s → Coming rest c (s :: rest c.host.1)
  | atEnd : c.lookahead = some .atEnd → rest c.host.1 = [] → Coming rest c []

structure Poised (A : Collection S) (m : Mode) (rest : σ → List (StackSymbol S V)) (c : Config S V (σ × Record S V E))
    (types : List S) (w : List (StackSymbol S V)) : Prop where
  entered : Entered A c.states types
  state : c.states.head? = some c.state
  symbols : ∃ ss, c.symbols = ss ++ [.atEnd] ∧ ss.length = types.length ∧ ∀ s ∈ ss, Fit m s
  pushback : c.pushback = []
  coming : Coming rest c w
  shown : ∀ s ∈ w, FitToken m s
  answered : ∀ call ∈ c.host.2, call.2.Succeeds m

variable {g : Grammar S} {p : Production S} {A : Collection S} {start : S} {t : Tables S} {m : Mode}
variable {h : Host S V σ E} {rest : σ → List (StackSymbol S V)}
variable {c c' e d : Config S V (σ × Record S V E)} {types : List S} {w : List (StackSymbol S V)}

lemma poised_start {host : σ} (settled : Bool) (log : String) (hshown : ∀ s ∈ rest host, FitToken m s) :
    Poised (E := E) A m rest { Config.start (host, []) settled with log := log } [] (rest host) :=
  ⟨.start, rfl, ⟨[], rfl, rfl, forall_mem_nil _⟩, rfl, .unread rfl, hshown, forall_mem_nil _⟩

section Shown

variable (hh : h.Shows m) (htracing : m.tracing = true)

include hh htracing

lemma Fit.showable {s : StackSymbol S V} (hs : Fit m s) : Showable h.recording s :=
  (hs.value htracing).imp fun v hv => ⟨hv, hh htracing v⟩

lemma Poised.exists_stackText (hc : Poised A m rest c types w) : ∃ text, stackText h.recording c = .ok text := by
  unfold stackText
  refine exists_ok_bind ?_ fun _ _ => ⟨_, rfl⟩
  cases hc.coming with
  | unread hl =>
    rw [hl]
    exact ⟨_, rfl⟩
  | token hl =>
    rw [hl]
    have hs := hc.shown _ mem_cons_self
    exact exists_shownSymbol (hs.showable hh htracing) (hs.fullLine htracing) (hs.fullPosition htracing)
  | atEnd hl =>
    rw [hl]
    exact ⟨_, rfl⟩

end Shown

lemma Coming.of_eq (hcoming : Coming rest c w) (hahead : c'.lookahead = c.lookahead)
    (hrest : rest c'.host.1 = rest c.host.1) : Coming rest c' w := by
  cases hcoming with
  | unread hl => exact hrest ▸ .unread (hahead.trans hl)
  | token hl => exact hrest ▸ .token (hahead.trans hl)
  | atEnd hl hnil => exact .atEnd (hahead.trans hl) (hrest.trans hnil)

namespace Poised

lemma log (hc : Poised A m rest c types w) (log : String) : Poised A m rest { c with log := log } types w :=
  ⟨hc.entered, hc.state, hc.symbols, hc.pushback, hc.coming.of_eq rfl rfl, hc.shown, hc.answered⟩

lemma exists_states (hc : Poised A m rest c types w) : ∃ qs, c.states = c.state :: qs := by
  obtain ⟨q, qs, hq⟩ := hc.entered.exists_cons
  refine ⟨qs, ?_⟩
  have := hc.state
  rw [hq] at this ⊢
  rw [Option.some.inj this]

lemma state_eq (hc : Poised A m rest c types w) {r : Nat} {qs : List Nat} (hq : c.states = r :: qs) : c.state = r := by
  have := hc.state
  rw [hq] at this
  exact (Option.some.inj this).symm

lemma fetch (hf : h.Feeds rest) (hc : Poised A m rest c types w) : ∃ ahead host,
    fetch h.recording c = (.ok ahead, { c with lookahead := some ahead, host := host }) ∧
    ahead.type = firstType StackSymbol.type w ∧ (∀ s v, w = s :: v → ahead = s) ∧
    Poised A m rest { c with lookahead := some ahead, host := host } types w := by
  cases hcoming : hc.coming with
  | unread hl =>
    have hnext : h.recording.nextToken c.host = (.ok (rest c.host.1).head?, (h.nextToken c.host.1).2, c.host.2) :=
      congrArg (fun x => (x, (h.nextToken c.host.1).2, c.host.2)) (hf.token c.host.1)
    refine ⟨(rest c.host.1).head?.getD .atEnd, ((h.nextToken c.host.1).2, c.host.2), ?_, ?_, ?_, ?_⟩
    · simp only [Parser.fetch, hl, hc.pushback, hnext]
    · cases rest c.host.1 <;> rfl
    · intro s v hw
      rw [hw]
      rfl
    · refine ⟨hc.entered, hc.state, hc.symbols, hc.pushback, ?_, hc.shown, hc.answered⟩
      have hnext := hf.next c.host.1
      cases hrest : rest c.host.1 with
      | nil =>
        rw [hrest] at hnext
        exact .atEnd rfl hnext
      | cons s v =>
        rw [hrest] at hnext
        have hcome : Coming rest { c with lookahead := some s, host := ((h.nextToken c.host.1).2, c.host.2) }
            (s :: rest (h.nextToken c.host.1).2) := .token rfl
        rwa [show rest (h.nextToken c.host.1).2 = v from hnext] at hcome
  | @token s hl =>
    have hsame : { c with lookahead := some s, host := c.host } = c := by rw [← hl]
    refine ⟨s, c.host, ?_, rfl, fun _ _ heq => (List.cons.inj heq).1, hsame.symm ▸ hc⟩
    rw [hsame]
    simp only [Parser.fetch, hl]
  | atEnd hl hrest =>
    have hsame : { c with lookahead := some .atEnd, host := c.host } = c := by rw [← hl]
    refine ⟨.atEnd, c.host, ?_, rfl, ?_, hsame.symm ▸ hc⟩
    · rw [hsame]
      simp only [Parser.fetch, hl]
    · intro s v heq
      cases heq

end Poised

inductive Turn (h : Host S V σ E) (t : Tables S) (A : Collection S) (m : Mode) (rest : σ → List (StackSymbol S V))
    (c : Config S V (σ × Record S V E)) (types : List S) (w : List (StackSymbol S V)) :
    Progress S V (σ × Record S V E) E → Prop
  | default {n : Nat} (log : String) : t.default? c.state = some n →
      Turn h t A m rest c types w (reduceBy h.recording t m n { c with log := log })
  | act {ahead : StackSymbol S V} {c₁ c₂ : Config S V (σ × Record S V E)} : t.default? c.state = none →
      fetch h.recording c = (.ok ahead, c₁) → ahead.type = firstType StackSymbol.type w →
      (∀ s v, w = s :: v → ahead = s) → Poised A m rest c₂ types w → c₂.lookahead = some ahead → c₂.states = c.states →
      c₂.state = c.state → Turn h t A m rest c types w (act h.recording t m ahead c₂)

namespace Poised

lemma turn (hf : h.Feeds rest) (hh : h.Shows m) (hc : Poised A m rest c types w) (t : Tables S) :
    Turn h t A m rest c types w (step h.recording t m c) := by
  have hstack : ∀ {c}, Poised A m rest c types w → m.tracing = true →
      ∃ text, (stackText h.recording c).map ("Stack  : " ++ ·) = .ok text :=
    fun hc htracing => exists_ok_map _ (hc.exists_stackText hh htracing)
  unfold step
  refine traced_spec (fun _ => ⟨_, rfl⟩) fun log => ?_
  dsimp only
  cases hd : t.default? c.state with
  | some n =>
    refine traced_spec (fun _ => ⟨_, rfl⟩) fun log₂ => traced_spec (hstack (hc.log log₂)) fun log₃ => ?_
    exact .default log₃ hd
  | none =>
    obtain ⟨ahead, host, hfetch, htype, hahead, hc₁⟩ := (hc.log log).fetch hf
    dsimp only at hfetch ⊢
    rw [hfetch]
    refine traced_spec (hstack hc₁) fun log₂ => ?_
    exact .act hd (fetch_log hfetch) htype hahead (hc₁.log log₂) rfl rfl rfl

lemma shift {s : StackSymbol S V} (hc : Poised A m rest c types (s :: w)) (hl : c.lookahead = some s) {r : Nat}
    (hgoto : A.goto? c.state s.type = some r) :
    ∃ c', shift (E := E) m s r c = .running c' ∧ Poised A m rest c' (s.type :: types) w ∧ c'.states = r :: c.states := by
  obtain ⟨qs, hqs⟩ := hc.exists_states
  obtain ⟨ss, hss, hlen, hfit⟩ := hc.symbols
  have hrest : w = rest c.host.1 := by
    generalize heq : s :: w = v at hc
    cases hc.coming with
    | unread hnone =>
      rw [hl] at hnone
      cases hnone
    | token => exact (List.cons.inj heq).2
    | atEnd => cases heq
  refine traced_spec (P := fun x => ∃ c', x = .running c' ∧ Poised A m rest c' (s.type :: types) w ∧
    c'.states = r :: c.states) (fun _ => ⟨_, rfl⟩) fun log => ⟨_, rfl, ?_, rfl⟩
  refine ⟨?_, rfl, ⟨s :: ss, ?_, ?_, ?_⟩, hc.pushback, hrest ▸ .unread rfl, ?_, hc.answered⟩
  · have hent := hc.entered
    rw [hqs] at hent
    dsimp only
    rw [hqs]
    exact hent.push hgoto
  · exact congrArg (s :: ·) hss
  · exact congrArg (· + 1) hlen
  · exact forall_mem_cons.mpr ⟨(hc.shown s mem_cons_self).toFit, hfit⟩
  · exact fun x hx => hc.shown x (mem_cons_of_mem _ hx)

lemma take_symbols (hc : Poised A m rest c types w) {n : Nat} (hn : n ≤ types.length) :
    (c.symbols.take n).reverse.length = n ∧ (∀ x ∈ (c.symbols.take n).reverse, Fit m x) ∧
      ∃ ss, c.symbols.drop n = ss ++ [.atEnd] ∧ ss.length = (types.drop n).length ∧ ∀ x ∈ ss, Fit m x := by
  obtain ⟨ss, hss, hlen, hfit⟩ := hc.symbols
  rw [← hlen] at hn
  rw [hss, take_append_of_le_length hn, drop_append_of_le_length hn]
  refine ⟨?_, ?_, ss.drop n, rfl, ?_, fun x hx => hfit x (mem_of_mem_drop hx)⟩
  · rw [length_reverse, length_take_of_le hn]
  · exact fun x hx => hfit x (mem_of_mem_take (mem_reverse.mp hx))
  · rw [length_drop, length_drop, hlen]

lemma reduce (hf : h.Feeds rest) (hh : h.Shows m) (hr : g.Ready p start) (hA : Explored g p A) (ht : Respects t g p A)
    (hc : Poised A m rest c types w) {pr : Production S} (hpr : pr ∈ g.productions)
    (hi : pr.dotted pr.symbols.length ∈ A.itemsOf c.state)
    (hdone : ∀ call ∈ (reduceBy h.recording t m pr.number c).config.host.2, call.2.Succeeds m) :
    ∃ c' q qs r, reduceBy h.recording t m pr.number c = .running c' ∧ c.states.drop pr.symbols.length = q :: qs ∧
      A.goto? q pr.name = some r ∧ Poised A m rest c' (pr.name :: types.drop pr.symbols.length) w ∧
      c'.states = r :: q :: qs := by
  obtain ⟨rest', hrest'⟩ := hc.exists_states
  have hent := hc.entered
  rw [hrest'] at hent
  obtain ⟨q, qs, hdrop, hent', htake, h0⟩ := hent.retreat hA hi
  rw [← hrest'] at hdrop
  obtain ⟨i, hmem, hnext, hnon⟩ := Lookahead.mem_transitions.mp (hr.mem_transitions hA hpr h0)
  obtain ⟨r, hgoto⟩ : ∃ r, A.goto? q pr.name = some r := by
    obtain ⟨pr', -, d, -, rfl⟩ := hA.belongs hmem
    exact hA.exists_goto? hmem hnext
  have hlen : pr.symbols.length ≤ types.length := by
    have := congrArg List.length htake
    simp only [length_take, length_reverse] at this
    omega
  obtain ⟨hargs, hfit, ss, hss, hsslen, hssfit⟩ := hc.take_symbols hlen
  have htarget : gotoOf t (c.states.drop pr.symbols.length) pr.name = .ok r := by
    rw [hdrop, gotoOf, ht.goto hgoto hnon]
  have hline : m.tracing = true → ∃ text, reduceLine h.recording t pr c = .ok text := fun htracing =>
    exists_ok_bind (exists_shownEntries fun x hx => (hfit x hx).showable hh htracing) fun _ _ => exists_ok_bind ⟨r, htarget⟩ fun _ _ => ⟨_, rfl⟩
  rw [reduceBy_eq ht.productions hr.numbered (mem_append_right _ hpr) hr.augmented] at hdone ⊢
  -- the outcome of the reduction, as far as its rule succeeds
  let Reduced (x : Progress S V (σ × Record S V E) E) : Prop := (∀ call ∈ x.config.host.2, call.2.Succeeds m) →
    ∃ c', x = .running c' ∧ Poised A m rest c' (pr.name :: types.drop pr.symbols.length) w ∧ c'.states = r :: q :: qs
  suffices Reduced (Parser.reduce h.recording t m pr c) by
    obtain ⟨c', heq, hc', hstates⟩ := this hdone
    exact ⟨c', q, qs, r, heq, hdrop, hgoto, hc', hstates⟩
  refine traced_spec (P := Reduced) hline fun log => ?_
  obtain ⟨s, hnew, -⟩ := newSymbol_ok (h := h.recording) (m := m)
    (fun x hx htrack => ⟨(hfit x hx).line htrack, (hfit x hx).position htrack⟩) hargs { c with log := log }
  obtain ⟨reply, host, happly⟩ : ∃ reply host, h.recording.apply
      ⟨pr, s, (c.symbols.take pr.symbols.length).reverse, c.symbols.drop pr.symbols.length⟩ c.host =
        (reply, host) := ⟨_, _, rfl⟩
  have hrecord := Host.of_recording_apply happly
  have hlast := Host.mem_recording_apply happly
  simp only [hnew, happly]
  cases reply with
  | failed e => exact fun hdone => (hdone _ hlast).elim
  | raised =>
    intro hdone
    rw [backOut_host] at hdone
    exact (hdone _ hlast).elim
  | done s' recovered =>
    refine traced_spec (P := Reduced) (fun htracing => exists_ok_map _ (exists_shownResult (hh htracing _))) fun log₂ hdone => ?_
    simp only [pushReduced, htarget] at hdone ⊢
    refine ⟨_, rfl, ⟨?_, rfl, ⟨s' :: ss, ?_, ?_, ?_⟩, hc.pushback, ?_, hc.shown, hdone⟩, ?_⟩
    · dsimp only
      rw [hdrop]
      exact hent'.push hgoto
    · exact congrArg (s' :: ·) hss
    · exact congrArg (· + 1) hsslen
    · exact forall_mem_cons.mpr ⟨hdone _ hlast, hssfit⟩
    · refine hc.coming.of_eq rfl ?_
      rw [hrecord]
      exact hf.apply _ _
    · rw [hdrop]

lemma accept (hh : h.Shows m) (hc : Poised A m rest c types w) (htypes : types ≠ []) :
    ∃ v c', accept h.recording m c = .finished v c' := by
  obtain ⟨ss, hss, hlen, -⟩ := hc.symbols
  cases ss with
  | nil => exact absurd (length_eq_zero_iff.mp hlen.symm) htypes
  | cons top ss =>
    unfold Parser.accept
    rw [hss, cons_append]
    refine traced_spec (P := fun x => ∃ v c', x = .finished v c')
      (fun htracing => exists_ok_map _ (exists_shownResult (hh htracing _))) fun log => ⟨_, _, rfl⟩

end Poised

def Calmly (h : Host S V σ E) (t : Tables S) (m : Mode) :
    Config S V (σ × Record S V E) → Config S V (σ × Record S V E) → Prop :=
  Relation.ReflTransGen fun c c' => step h.recording t m c = .running c' ∧ calm h t c = true

lemma Poised.calm_of_default (hc : Poised A m rest c types w) {n : Nat} (hd : t.default? c.state = some n) :
    calm h t c = true :=
  calm_iff.mpr ⟨by simp [errs, hd], fun call hcall => (hc.answered call hcall).isRaised⟩

lemma Poised.calm_of_action (hc : Poised A m rest c types w) {ahead : StackSymbol S V}
    (hfetch : Parser.fetch h.recording c = (.ok ahead, c')) {a : Action} (ha : t.action? c.state ahead.type = some a) :
    calm h t c = true :=
  calm_iff.mpr ⟨by simp [errs, hfetch, ha], fun call hcall => (hc.answered call hcall).isRaised⟩

def Unfailing (h : Host S V σ E) (t : Tables S) (m : Mode) (c : Config S V (σ × Record S V E)) : Prop :=
  ∀ d, Calmly h t m c d → ∀ call ∈ (step h.recording t m d).config.host.2, call.2.Succeeds m

def ReadsTree (h : Host S V σ E) (t : Tables S) (g : Grammar S) (A : Collection S) (start : S) (m : Mode)
    (rest : σ → List (StackSymbol S V)) (tree : ParseTree S (StackSymbol S V)) : Prop :=
  ∀ {c : Config S V (σ × Record S V E)} {types : List S} {w : List (StackSymbol S V)} {r : Nat},
    Poised A m rest c types (tree.word ++ w) → Unfailing h t m c →
    (∃ i ∈ A.itemsOf c.state, i.next? = some (tree.root StackSymbol.type)) →
    A.goto? c.state (tree.root StackSymbol.type) = some r →
    (g.isNonterminal (tree.root StackSymbol.type) = true →
      Follows g A start c.state (tree.root StackSymbol.type) (firstType StackSymbol.type w)) →
    ∃ c', Calmly h t m c c' ∧ Poised A m rest c' (tree.root StackSymbol.type :: types) w ∧ c'.states = r :: c.states

lemma Unfailing.of_calmly (hdone : Unfailing h t m c) (hsteps : Calmly h t m c c') : Unfailing h t m c' :=
  fun d hd => hdone d (hsteps.trans hd)

section Trees

variable (hf : h.Feeds rest) (hh : h.Shows m) (ht : Answers t g p A start) {pr : Production S}

include hf hh ht

lemma readsTree_leaf {s : StackSymbol S V} (hterm : g.isTerminal s.type = true) :
    ReadsTree h t g A start m rest (.leaf s) := by
  intro c types w r hc _ hwanted hgoto _
  obtain ⟨i, hi, hnext⟩ := hwanted
  have hgoto : A.goto? c.state s.type = some r := hgoto
  have hact : t.action? c.state s.type = some (.shift r) := by
    obtain ⟨r', hact⟩ := ht.shift hi hnext hterm
    rw [show (ParseTree.leaf s : ParseTree S (StackSymbol S V)).root StackSymbol.type = s.type from rfl] at hact
    have hgoto' := (ht.of_shift hact).1
    rw [hgoto] at hgoto'
    rwa [Option.some.inj hgoto']
  have hturn := hc.turn hf hh t
  generalize hstep : step h.recording t m c = x at hturn
  cases hturn with
  | default log hd => cases (ht.of_default hd).2 hact
  | @act ahead c₁ c₂ hd hfetch htype hahead hc₂ hl hstates hstate =>
    obtain rfl : ahead = s := hahead s w rfl
    rw [← hstate] at hgoto
    obtain ⟨c', hshift, hc', hstates'⟩ := hc₂.shift hl hgoto
    refine ⟨c', .single ⟨?_, hc.calm_of_action hfetch hact⟩, hc', hstates'.trans (congrArg (r :: ·) hstates)⟩
    rw [hstep, act, hstate, hact]
    exact hshift

lemma Poised.step_reduce (hr : g.Ready p start) (hA : Explored g p A) (hc : Poised A m rest c types w)
    (hpr : pr ∈ g.productions) (hi : pr.dotted pr.symbols.length ∈ A.itemsOf c.state)
    (hact : t.action? c.state (firstType StackSymbol.type w) = some (.reduce pr.number))
    (hdone : ∀ call ∈ (step h.recording t m c).config.host.2, call.2.Succeeds m) :
    ∃ c' q qs r, step h.recording t m c = .running c' ∧ calm h t c = true ∧
      c.states.drop pr.symbols.length = q :: qs ∧ A.goto? q pr.name = some r ∧
      Poised A m rest c' (pr.name :: types.drop pr.symbols.length) w ∧ c'.states = r :: q :: qs := by
  have hturn := hc.turn hf hh t
  generalize step h.recording t m c = x at hturn hdone
  cases hturn with
  | default log hd =>
    obtain rfl := Action.reduce.inj ((ht.of_default hd).2 hact)
    obtain ⟨c', q, qs, r, hreduce, hdrop, hgoto, hc', hstates⟩ := (hc.log log).reduce hf hh hr hA ht.toRespects hpr hi hdone
    exact ⟨c', q, qs, r, hreduce, hc.calm_of_default hd, hdrop, hgoto, hc', hstates⟩
  | @act ahead c₁ c₂ hd hfetch htype hahead hc₂ hl hstates hstate =>
    rw [← htype] at hact
    have hreduce : act h.recording t m ahead c₂ = reduceBy h.recording t m pr.number c₂ := by
      rw [act, hstate, hact]
    rw [hreduce] at hdone ⊢
    obtain ⟨c', q, qs, r, heq, hdrop, hgoto, hc', hstates'⟩ := hc₂.reduce hf hh hr hA ht.toRespects hpr (hstate ▸ hi) hdone
    exact ⟨c', q, qs, r, heq, hc.calm_of_action hfetch hact, hstates ▸ hdrop, hgoto, hc', hstates'⟩

variable (hr : g.Ready p start) (hA : Explored g p A) (hs : Sorted g)

include hr hA hs

lemma readsForest {q₀ : Nat} (h0 : pr.dotted 0 ∈ A.itemsOf q₀) (htrans : (q₀, pr.name) ∈ transitions g A)
    (hfollow : Follows g A start q₀ pr.name (firstType StackSymbol.type w)) {ts : List (ParseTree S (StackSymbol S V))}
    (hfits : ∀ u ∈ ts, u.Fits (rulesOf g) (g.isTerminal · = true) StackSymbol.type)
    (hreads : ∀ u ∈ ts, ReadsTree h t g A start m rest u) {d : Nat} (hc : Poised A m rest c types (words ts ++ w))
    (hdone : Unfailing h t m c) (hreach : A.reach? q₀ (pr.symbols.take d) = some c.state)
    (hi : pr.dotted d ∈ A.itemsOf c.state) (hsym : pr.symbols.drop d = ts.map (root StackSymbol.type)) :
    ∃ c', Calmly h t m c c' ∧ Poised A m rest c' ((ts.map (root StackSymbol.type)).reverse ++ types) w ∧
      A.reach? q₀ pr.symbols = some c'.state ∧ c'.states.drop ts.length = c.states := by
  induction ts generalizing c types d with
  | nil =>
    refine ⟨c, .refl, hc, ?_, rfl⟩
    have hd : pr.symbols.length ≤ d := drop_eq_nil_iff.mp hsym
    rwa [take_of_length_le hd] at hreach
  | cons u ts ih =>
    obtain ⟨hnext, hdrop⟩ := next_of_drop hsym
    obtain ⟨r, hgoto⟩ := hA.exists_goto? hi hnext
    have hfits' : ∀ x ∈ ts, x.Fits (rulesOf g) (g.isTerminal · = true) StackSymbol.type :=
      fun x hx => hfits x (mem_cons_of_mem _ hx)
    rw [words, append_assoc] at hc
    obtain ⟨c₁, hsteps, hc₁, hstates⟩ := hreads u mem_cons_self hc hdone ⟨_, hi, hnext⟩ hgoto fun _ =>
      follows_child hs hA h0 htrans hfollow hfits' hreach hi hsym hgoto
    have hstate := hc₁.state_eq hstates
    have hreach₁ : A.reach? q₀ (pr.symbols.take (d + 1)) = some c₁.state := by
      rw [take_add_one, hnext, Option.toList_some, reach?_append, hreach, Option.bind_some, reach?_cons, hgoto,
        hstate]
      rfl
    obtain ⟨c', hsteps', hc', hreach', hdrop'⟩ := ih hfits' (fun x hx => hreads x (mem_cons_of_mem _ hx)) hc₁
      (hdone.of_calmly hsteps) hreach₁ (hstate ▸ hA.dotted_succ_mem hi hnext hgoto) hdrop
    refine ⟨c', hsteps.trans hsteps', ?_, hreach', ?_⟩
    · rw [map_cons, reverse_cons, append_assoc]
      exact hc'
    · rw [length_cons, ← drop_drop, hdrop', hstates]
      rfl

theorem readsTree {tree : ParseTree S (StackSymbol S V)}
    (hfits : tree.Fits (rulesOf g) (g.isTerminal · = true) StackSymbol.type) : ReadsTree h t g A start m rest tree := by
  induction hfits with
  | leaf s hterm => exact readsTree_leaf hf hh ht hterm
  | node name children hrule hfits ih =>
    intro c types w r hc hdone hwanted hgoto hfollow
    obtain ⟨pr, hpr, rfl, hsym⟩ := exists_production hr.numbered hrule
    have hmem := hr.numbered.mem_productions hpr
    obtain ⟨i, hi, hnext⟩ := hwanted
    obtain ⟨outer, -, e, -, rfl⟩ := hA.belongs hi
    have h0 : pr.dotted 0 ∈ A.itemsOf c.state := hA.dotted_zero_mem hi hnext hpr
    have hfollow := hfollow (hr.name hmem).2
    obtain ⟨c₁, hsteps, hc₁, hreach, hdrop⟩ := readsForest hf hh ht hr hA hs h0 (hr.mem_transitions hA hmem h0)
      hfollow hfits ih hc hdone rfl h0 (by rw [drop_zero, hsym])
    have hlen : pr.symbols.length = children.length := by rw [hsym, length_map]
    obtain ⟨c', q, qs, r', hstep, hcalm, hdrop', hgoto', hc', hstates'⟩ := hc₁.step_reduce hf hh ht hr hA hmem
      (hA.dotted_length_mem h0 hreach) (ht.reduce hmem h0 hreach hfollow) (hdone c₁ hsteps)
    rw [hlen, hdrop] at hdrop'
    obtain rfl : r' = r := by
      rw [← hc.state_eq hdrop', show A.goto? c.state pr.name = some r from hgoto] at hgoto'
      exact (Option.some.inj hgoto').symm
    refine ⟨c', hsteps.tail ⟨hstep, hcalm⟩, ?_, by rw [hstates', hdrop']⟩
    have hrev : pr.symbols.length = (children.map (root StackSymbol.type)).reverse.length := by
      rw [length_reverse, length_map, hlen]
    rw [hrev, drop_left] at hc'
    exact hc'

end Trees

lemma Calmly.exists_run (hsteps : Calmly h t m c c') : ∃ n, run h.recording t m n c = .running c' ∧
    run h.recording t m (n + 1) c = step h.recording t m c' := by
  induction hsteps using Relation.ReflTransGen.head_induction_on with
  | refl =>
    refine ⟨0, rfl, ?_⟩
    rw [run]
    cases step h.recording t m c' <;> rfl
  | head hfirst _ ih =>
    obtain ⟨n, hn, hnext⟩ := ih
    exact ⟨n + 1, by rw [run, hfirst.1]; exact hn, by rw [run, hfirst.1]; exact hnext⟩

lemma Calmly.run_calm {v : Option V} (hsteps : Calmly h t m c c') (hcalm : calm h t c' = true)
    (hstep : step h.recording t m c' = .finished v e) (k : Nat)
    (hk : run h.recording t m k c = .running d) : calm h t d = true := by
  induction hsteps using Relation.ReflTransGen.head_induction_on generalizing k with
  | refl =>
    cases k with
    | zero =>
      obtain rfl := Progress.running.inj hk
      exact hcalm
    | succ k =>
      rw [run, hstep] at hk
      cases hk
  | head hfirst _ ih =>
    cases k with
    | zero =>
      obtain rfl := Progress.running.inj hk
      exact hfirst.2
    | succ k =>
      rw [run, hfirst.1] at hk
      exact ih k hk

section Parse

variable {settled : Bool} {host : σ}

def RulesSucceed (h : Host S V σ E) (t : Tables S) (m : Mode) (settled : Bool) (host : σ) : Prop :=
  ∀ n, ∀ call ∈ (parse h.recording t m n settled (host, [])).config.host.2, call.2.Succeeds m

lemma accepts_tree (hf : h.Feeds rest) (hh : h.Shows m) (ht : Answers t g p A start) (hr : g.Ready p start)
    (hA : Explored g p A) (hs : Sorted g) (hrules : RulesSucceed h t m settled host)
    (hshown : ∀ s ∈ rest host, FitToken m s) {tree : ParseTree S (StackSymbol S V)}
    (hfits : tree.Fits (rulesOf g) (g.isTerminal · = true) StackSymbol.type) (hroot : tree.root StackSymbol.type = start)
    (hword : tree.word = rest host) : Undisturbed h t m settled host ∧ ∃ v c, Accepts h t m settled host v c := by
  obtain ⟨log, hlog⟩ := exists_run h.recording t m settled (host, [])
  have hsym : p.symbols[0]? = some start := by
    rw [hr.first.2]
    rfl
  obtain ⟨r, hgoto⟩ := hA.exists_goto? hA.start_mem hsym
  have hpoised : Poised (E := E) A m rest { Config.start (host, []) settled with log := log } [] (tree.word ++ []) := by
    rw [append_nil, hword]
    exact poised_start settled log hshown
  have hdone : Unfailing h t m { Config.start (host, []) settled with log := log } := by
    intro d hd call hcall
    obtain ⟨n, -, hnext⟩ := hd.exists_run
    refine hrules (n + 1) call ?_
    rwa [hlog, hnext]
  obtain ⟨c₁, hsteps, hc₁, hstates⟩ := readsTree hf hh ht hr hA hs hfits hpoised hdone ⟨_, hA.start_mem, hroot ▸ hsym⟩
    (hroot ▸ hgoto) fun _ => hroot ▸ .last
  -- in the state after the whole input the end is accepted
  have hact : t.action? c₁.state endMark = some .accept := by
    refine ht.accept ?_
    rw [hc₁.state_eq hstates]
    exact hA.dotted_succ_mem hA.start_mem hsym hgoto
  have hturn := hc₁.turn hf hh t
  generalize hstep : step h.recording t m c₁ = x at hturn
  cases hturn with
  | default _ hd => cases (ht.of_default hd).2 hact
  | @act ahead c₂ c₃ hd hfetch htype _ hc₃ _ _ hstate =>
    rw [← show ahead.type = endMark from htype] at hact
    obtain ⟨v, e, haccept⟩ := hc₃.accept hh (cons_ne_nil _ _)
    rw [act, hstate, hact] at hstep
    have hstep := hstep.trans haccept
    obtain ⟨n, hn, hend⟩ := hsteps.exists_run
    refine ⟨fun k d hk => hsteps.run_calm (hc₁.calm_of_action hfetch hact) hstep k ((hlog k).symm.trans hk), v,
      e.unrecorded, Accepts.unrecorded ⟨n, c₁, ahead, c₂, (hlog n).trans hn, hd, hfetch, hact, fun k hk => ?_⟩⟩
    rw [hlog]
    exact run_of_finished (hend.trans hstep) hk

end Parse

section Conflictfree

variable {β : Type} {ds : Declarations β} {opts : BuildOptions} {b : Built} {logs : Logs} {t : Tables String}
variable {h : Host String V σ E} {rest : σ → List (StackSymbol String V)} {settled : Bool} {host : σ}

/-- Tables without conflicts, for a grammar without precedences, accept all that is derived from the start symbol. -/
theorem conflict_free_accepts (hbuild : Parser.build ds opts = (.ok b, logs)) (hprecedence : b.grammar.precedence = {})
    (hapart : ∀ s, b.grammar.isTerminal s = true → b.grammar.isNonterminal s = false)
    (hsr : b.table.shiftReduceConflicts = []) (hrr : b.table.reduceReduceConflicts = [])
    (ht : t = b.tables ∨ t = b.tables.withoutDefaults) (hfeeds : h.Feeds rest) (hshows : h.Shows m)
    (htokens : ∀ s ∈ rest host, FitToken m s ∧ b.grammar.isTerminal s.type = true)
    (hrules : RulesSucceed h t m settled host)
    (hderives : ∃ start, b.grammar.start = some start ∧
      Derives (rulesOf b.grammar) [start] ((rest host).map StackSymbol.type)) :
    Undisturbed h t m settled host ∧ ∃ v c, Accepts h t m settled host v c := by
  obtain ⟨p, start, hmade⟩ := made_build hbuild
  obtain ⟨start', hstart, hderives⟩ := hderives
  obtain rfl : start' = start := Option.some.inj (hstart.symm.trans hmade.start)
  have hanswers : Answers t b.grammar p (Collection.build b.grammar p) start' := by
    have := hmade.answers hprecedence hapart hsr hrr
    rcases ht with rfl | rfl
    · exact this
    · exact this.withoutDefaults
  obtain ⟨tree, hroot, hword, hfits⟩ : ∃ tree : ParseTree String (StackSymbol String V),
      tree.root StackSymbol.type = start' ∧ tree.word = rest host ∧
        tree.Fits (rulesOf b.grammar) (b.grammar.isTerminal · = true) StackSymbol.type :=
    hderives.tree fun s hs => (htokens s hs).2
  exact accepts_tree hfeeds hshows hanswers hmade.ready hmade.ready.explored (hmade.ready.sorted hapart) hrules
    (fun s hs => (htokens s hs).1) hfits hroot hword

end Conflictfree

lemma fit_plain (s : StackSymbol S V) : FitToken {} s := by
  constructor
  · constructor <;> simp
  · simp
  · simp

def RuleReply.isDone : RuleReply S V E → Bool
  | .done _ _ => true
  | _ => false

def doneUpTo (h : Host S V σ E) (t : Tables S) (settled : Bool) (host : σ) (n : Nat) : Bool :=
  (List.range (n + 1)).all fun k =>
    (parse h.recording t {} k settled (host, [])).config.host.2.all fun call => call.2.isDone

lemma rulesSucceed_of_doneUpTo {settled : Bool} {host : σ} {n : Nat}
    (hparse : (parse h t {} n settled host).isFinished = true) (hdone : doneUpTo h t settled host n = true) :
    RulesSucceed h t {} settled host := by
  have hall : ∀ k ≤ n, ∀ call ∈ (parse h.recording t {} k settled (host, [])).config.host.2,
      call.2.Succeeds {} := by
    intro k hk call hcall
    have hk := all_eq_true.mp (all_eq_true.mp hdone k (mem_range.mpr (Nat.lt_succ_of_le hk))) call hcall
    cases hreply : call.2 with
    | done s recovered => exact (fit_plain s).toFit
    | raised =>
      rw [hreply] at hk
      cases hk
    | failed e =>
      rw [hreply] at hk
      cases hk
  intro k
  rcases Nat.le_total k n with hle | hle
  · exact hall k hle
  · rw [parse_of_finished hparse hle]
    exact hall n (Nat.le_refl n)

def nested : Declarations Behaviour where
  file := "nested"
  attributes := [("tokens", .value (.list [.text "LPAREN", .text "RPAREN"])),
    ("p_list", .routine ⟨"p_list", some "list : LPAREN lists RPAREN", 1, 1, false, .rule {}⟩),
    ("p_lists", .routine ⟨"p_lists", some "lists : lists list\n |", 2, 1, false, .rule {}⟩)]
  source := none

def nestedTokens : List DatumSymbol :=
  [numbered "LPAREN" 1, numbered "LPAREN" 2, numbered "RPAREN" 3, numbered "RPAREN" 4]

def nestedParser : Built :=
  (Parser.build nested {}).1.toOption.get (by decide +kernel)

lemma derives_nested : Derives [("list", ["LPAREN", "lists", "RPAREN"]), ("lists", ["lists", "list"]), ("lists", [])]
    ["list"] (nestedTokens.map StackSymbol.type) :=
  .head (.rule [] [] mem_cons_self) <|
  .head (.rule ["LPAREN"] ["RPAREN"] (.tail _ mem_cons_self)) <|
  .head (.rule ["LPAREN"] ["list", "RPAREN"] (.tail _ (.tail _ mem_cons_self))) <|
  .head (.rule ["LPAREN"] ["RPAREN"] mem_cons_self) <|
  .single (.rule ["LPAREN", "LPAREN"] ["RPAREN", "RPAREN"] (.tail _ (.tail _ mem_cons_self)))

theorem conflict_free_accepts_nested : ∃ (b : Built) (logs : Logs), Parser.build nested {} = (.ok b, logs) ∧
    b.grammar.precedence = {} ∧ b.table.shiftReduceConflicts = [] ∧ b.table.reduceReduceConflicts = [] ∧
    RulesSucceed (behaviourHost nested) b.tables {} false { rest := nestedTokens } ∧
    Undisturbed (behaviourHost nested) b.tables {} false { rest := nestedTokens } ∧
    ∃ v c, Accepts (behaviourHost nested) b.tables {} false { rest := nestedTokens } v c := by
  have hfinished : (parse (behaviourHost nested) nestedParser.tables {} 20 false
      { rest := nestedTokens }).isFinished = true := by
    decide +kernel
  have hdone : doneUpTo (behaviourHost nested) nestedParser.tables false
      { rest := nestedTokens } 20 = true := by
    decide +kernel
  have hrules := rulesSucceed_of_doneUpTo hfinished hdone
  have hprecedence : nestedParser.grammar.precedence = {} :=
    Registry.eq_empty (by decide +kernel)
  have hsr : nestedParser.table.shiftReduceConflicts = [] :=
    List.isEmpty_iff.mp (by decide +kernel)
  have hrr : nestedParser.table.reduceReduceConflicts = [] :=
    List.isEmpty_iff.mp (by decide +kernel)
  have hapart : ∀ s ∈ nestedParser.grammar.terminals.keys,
      nestedParser.grammar.isNonterminal s = false := by
    decide +kernel
  have hterminal : ∀ s ∈ nestedTokens,
      nestedParser.grammar.isTerminal s.type = true := by
    decide +kernel
  have hstart : nestedParser.grammar.start = some "list" := by
    decide +kernel
  have hgrammar : rulesOf nestedParser.grammar =
      [("list", ["LPAREN", "lists", "RPAREN"]), ("lists", ["lists", "list"]), ("lists", [])] := by
    decide +kernel
  refine ⟨nestedParser, _, eq_built _, hprecedence, hsr, hrr, hrules, ?_⟩
  exact conflict_free_accepts (b := nestedParser) (eq_built _) hprecedence
    (fun s hs => hapart s ((Registry.contains_iff_mem_keys _ _).mp hs)) hsr hrr (.inl rfl) (feeds_behaviourHost nested)
    (fun htracing => nomatch htracing) (fun s hs => ⟨fit_plain s, hterminal s hs⟩) hrules
    ⟨"list", hstart, hgrammar ▸ derives_nested⟩

end LispKit.Parser
