import LispKit.Proofs.Parser.Step

/-! Two parsers with one table: the second goes along with the first, through errors and their recovery too, until its
surroundings fail. It may trace what it does and track the places of symbols. -/

set_option linter.unusedSectionVars false

namespace LispKit.Parser

open Vocabulary List

variable {S V σ τ E F : Type} [DecidableEq S] [Vocabulary S]

section Shown

variable {h : Host S V σ E} {m : Mode}

lemma traced_spec {P : Progress S V σ E → Prop} {line : Except Fault String}
    (hline : m.tracing = true → ∃ text, line = .ok text) {c : Config S V σ} {k : Config S V σ → Progress S V σ E}
    (hk : ∀ log, P (k { c with log := log })) : P (traced m line c k) := by
  unfold traced
  split
  · rename_i htracing
    obtain ⟨text, rfl⟩ := hline htracing
    exact hk _
  · exact hk c.log

lemma exists_ok_bind {β γ : Type} {x : Except Fault β} {f : β → Except Fault γ} (hx : ∃ b, x = .ok b)
    (hf : ∀ b, x = .ok b → ∃ y, f b = .ok y) : ∃ y, (x >>= f) = .ok y := by
  obtain ⟨b, rfl⟩ := hx
  exact hf b rfl

lemma exists_ok_map {β γ : Type} {x : Except Fault β} (f : β → γ) (hx : ∃ b, x = .ok b) : ∃ y, x.map f = .ok y := by
  obtain ⟨b, rfl⟩ := hx
  exact ⟨f b, rfl⟩

def Showable (h : Host S V σ E) (s : StackSymbol S V) : Prop :=
  ∃ v, s.value = some v ∧ ∃ text, h.display v = .ok text

lemma exists_shownResult {v : V} (hv : ∃ text, h.display v = .ok text) : ∃ text, shownResult h v = .ok text :=
  exists_ok_bind hv fun _ _ => ⟨_, rfl⟩

lemma exists_shownEntries {ss : List (StackSymbol S V)} (hs : ∀ s ∈ ss, Showable h s) :
    ∃ texts, ss.mapM (shownEntry h) = .ok texts := by
  refine mapM_ok (shownEntry h) ss fun s hmem => ?_
  obtain ⟨v, hv, text, htext⟩ := hs s hmem
  unfold shownEntry StackSymbol.getValue
  rw [hv]
  exact exists_ok_bind ⟨v, rfl⟩ fun _ hu => exists_ok_bind ⟨text, Except.ok.inj hu ▸ htext⟩ fun _ _ => ⟨_, rfl⟩

lemma exists_shownSymbol {s : StackSymbol S V} (hs : Showable h s) (hline : ∃ n, s.line = some n)
    (hposition : ∃ n, s.position = some n) : ∃ text, shownSymbol h s = .ok text := by
  obtain ⟨v, hv, text, htext⟩ := hs
  obtain ⟨n, hn⟩ := hline
  obtain ⟨k, hk⟩ := hposition
  unfold shownSymbol StackSymbol.getValue StackSymbol.getLine StackSymbol.getPosition
  rw [hv, hn, hk]
  split
  · exact exists_ok_bind ⟨v, rfl⟩ fun _ hu => exists_ok_bind ⟨text, Except.ok.inj hu ▸ htext⟩ fun _ _ => ⟨_, rfl⟩
  · exact ⟨_, rfl⟩

lemma newSymbol_ok {p : Production S} {arguments : List (StackSymbol S V)}
    (hargs : ∀ x ∈ arguments, m.tracking = true → (∃ n, x.line = some n) ∧ ∃ n, x.position = some n)
    (hlen : arguments.length = p.symbols.length) (c : Config S V σ) :
    ∃ s, newSymbol h m p arguments c = .ok s ∧ s.type = p.name ∧
      (m.tracking = true → (∃ n, s.line = some n) ∧ ∃ n, s.position = some n) := by
  unfold newSymbol
  cases htrack : m.tracking with
  | false => exact ⟨_, rfl, rfl, fun hyes => nomatch hyes⟩
  | true =>
    cases hsymbols : p.symbols with
    | nil => exact ⟨_, rfl, rfl, fun _ => ⟨⟨_, rfl⟩, ⟨_, rfl⟩⟩⟩
    | cons x xs =>
      have hne : arguments ≠ [] := by
        rintro rfl
        rw [hsymbols] at hlen
        cases hlen
      obtain ⟨first, hfirst⟩ : ∃ first, arguments.head? = some first :=
        ⟨_, head?_eq_some_head hne⟩
      have hlast := getLast?_eq_some_getLast hne
      obtain ⟨⟨n₁, hline₁⟩, p₁, hposition₁⟩ := hargs first (mem_of_mem_head? hfirst) htrack
      obtain ⟨⟨n₂, hline₂⟩, p₂, hposition₂⟩ := hargs _ (getLast_mem hne) htrack
      rw [hfirst, hlast]
      simp only [StackSymbol.spanning, StackSymbol.getLine, StackSymbol.getPosition, hline₁, hposition₁, hline₂, hposition₂]
      exact ⟨_, rfl, rfl, fun _ => ⟨⟨_, rfl⟩, ⟨_, rfl⟩⟩⟩

end Shown

section Symbols

variable {Like : V → V → Prop} {placed : Bool} {m : Mode} {x x' : StackSymbol S V}

structure Kin (Like : V → V → Prop) (placed : Bool) (x x' : StackSymbol S V) : Prop where
  type : x'.type = x.type
  value : ∃ v v', x.value = some v ∧ x'.value = some v' ∧ Like v v'
  place : placed = true → (∃ n, x'.line = some n) ∧ ∃ n, x'.position = some n

lemma Kin.relax (hx : Kin Like placed x x') {less : Bool} (hless : less = true → placed = true) : Kin Like less x x' :=
  ⟨hx.type, hx.value, fun h => hx.place (hless h)⟩

lemma Kin.value_rel (hx : Kin Like placed x x') : Option.Rel Like x.value x'.value := by
  obtain ⟨v, v', hv, hv', hlike⟩ := hx.value
  rw [hv, hv']
  exact .some hlike

lemma Kin.getD (hx : Kin Like placed x x') (u u' : V) : Like (x.value.getD u) (x'.value.getD u') := by
  obtain ⟨v, v', hv, hv', hlike⟩ := hx.value
  rw [hv, hv']
  exact hlike

lemma exists_kin {xs xs' : List (StackSymbol S V)} (hs : List.Forall₂ (Kin Like placed) xs xs') :
    ∀ x' ∈ xs', ∃ x, Kin Like placed x x' := by
  induction hs with
  | nil => exact forall_mem_nil _
  | cons hx _ ih => exact forall_mem_cons.mpr ⟨⟨_, hx⟩, ih⟩

inductive Ahead (Like : V → V → Prop) (placed : Bool) (x x' : StackSymbol S V) : Prop
  | token : Kin Like placed x x' → Ahead Like placed x x'
  | mark : x.type = endMark → x'.type = endMark → x'.isToken = false → Ahead Like placed x x'

namespace Ahead

lemma type (hx : Ahead Like placed x x') : x'.type = x.type := by
  cases hx with
  | token hx => exact hx.type
  | mark htype htype' _ => rw [htype, htype']

lemma kin (hx : Ahead Like placed x x') (hend : x.type ≠ endMark) : Kin Like placed x x' := by
  cases hx with
  | token hx => exact hx
  | mark htype _ _ => exact absurd htype hend

lemma getD_atEnd {o o' : Option (StackSymbol S V)} (ho : Option.Rel (Ahead Like placed) o o') :
    Ahead Like placed (o.getD .atEnd) (o'.getD .atEnd) := by
  cases ho with
  | none => exact .mark rfl rfl rfl
  | some hx => exact hx

lemma atPlace (hx : Ahead Like placed x x') {top : StackSymbol S V}
    (htop : m.tracking = true → (∃ n, top.line = some n) ∧ ∃ n, top.position = some n) :
    ∃ x₁, (if m.tracking then x'.placedAt top else .ok x') = .ok x₁ ∧ Ahead Like placed x x₁ := by
  cases htrack : m.tracking with
  | false => exact ⟨x', rfl, hx⟩
  | true =>
    obtain ⟨⟨n, hline⟩, k, hposition⟩ := htop htrack
    simp only [if_true, StackSymbol.placedAt, StackSymbol.getLine, StackSymbol.getPosition, hline, hposition]
    refine ⟨_, rfl, ?_⟩
    cases hx with
    | token hx => exact .token ⟨hx.type, hx.value, fun _ => ⟨⟨n, rfl⟩, k, rfl⟩⟩
    | mark htype htype' htoken => exact .mark htype htype' htoken

end Ahead

lemma Kin.extended (hx : Kin Like m.tracking x x') (token : StackSymbol S V) :
    ∃ x₁, (if m.tracking then x'.extendedTo token else .ok x') = .ok x₁ ∧ Kin Like m.tracking x x₁ := by
  cases htrack : m.tracking with
  | false => exact ⟨x', rfl, htrack ▸ hx⟩
  | true =>
    obtain ⟨⟨n, hline⟩, k, hposition⟩ := hx.place htrack
    simp only [if_true, StackSymbol.extendedTo, StackSymbol.getLine, StackSymbol.getPosition, hline, hposition]
    exact ⟨_, rfl, hx.type, hx.value, fun _ => ⟨⟨n, rfl⟩, k, rfl⟩⟩

inductive Stacked (Like : V → V → Prop) (placed : Bool) : List Nat → List (StackSymbol S V) → List (StackSymbol S V) → Prop
  | bottom (q : Nat) : Stacked Like placed [q] [.atEnd] [.atEnd]
  | push {q : Nat} {qs : List Nat} {x x' : StackSymbol S V} {xs xs' : List (StackSymbol S V)} :
      Kin Like placed x x' → Stacked Like placed qs xs xs' → Stacked Like placed (q :: qs) (x :: xs) (x' :: xs')

namespace Stacked

variable {qs : List Nat} {xs xs' : List (StackSymbol S V)}

lemma ne_nil (hs : Stacked Like placed qs xs xs') : qs ≠ [] := by
  cases hs with
  | bottom q => exact cons_ne_nil _ _
  | push _ _ => exact cons_ne_nil _ _

lemma exists_push (hs : Stacked Like placed qs xs xs') (hlen : 1 < qs.length) : ∃ q qs₀ x x' xs₀ xs₀', qs = q :: qs₀ ∧
    xs = x :: xs₀ ∧ xs' = x' :: xs₀' ∧ Kin Like placed x x' ∧ Stacked Like placed qs₀ xs₀ xs₀' := by
  cases hs with
  | bottom q => exact absurd hlen (Nat.lt_irrefl 1)
  | push hx hs => exact ⟨_, _, _, _, _, _, rfl, rfl, rfl, hx, hs⟩

lemma split (hs : Stacked Like placed qs xs xs') {k : Nat} (hk : k < qs.length) :
    List.Forall₂ (Kin Like placed) (xs.take k) (xs'.take k) ∧ (xs'.take k).length = k ∧
      Stacked Like placed (qs.drop k) (xs.drop k) (xs'.drop k) := by
  induction k generalizing qs xs xs' with
  | zero => exact ⟨.nil, rfl, hs⟩
  | succ k ih =>
    cases hs with
    | bottom q => exact absurd hk (by simp)
    | push hx hs =>
      obtain ⟨htake, hlen, hdrop⟩ := ih hs (by simpa using hk)
      exact ⟨.cons hx htake, congrArg (· + 1) hlen, hdrop⟩

end Stacked

end Symbols

/-- Surroundings that go along with those of another parser. Their tokens may fail, and so may their complaints about
the end of the input, which are fatal then. -/
structure Shadow (h : Host S V σ E) (k : Host S V τ F) (m : Mode) where
  Near : σ → τ → Prop
  Like : V → V → Prop
  Open : σ → Prop
  Fatal : σ → Prop
  Cut : F → Prop
  Stop : F → Prop
  nothing : Like h.nothing k.nothing
  display : m.tracing = true → ∀ {v v'}, Like v v' → ∃ text, k.display v' = .ok text
  ofToken : ∀ {x x'}, Kin Like false x x' → Like (h.ofToken x) (k.ofToken x')
  next : ∀ {s s'}, Open s → Near s s' → (∃ o s₁ o' s₁', h.nextToken s = (.ok o, s₁) ∧ k.nextToken s' = (.ok o', s₁') ∧
    Option.Rel (Ahead Like (m.tracing || m.tracking)) o o' ∧ Near s₁ s₁') ∨ ∃ e s₁', k.nextToken s' = (.error e, s₁') ∧ Cut e
  rule : ∀ {s s'} (r : Reduction S V), Near s s' →
    ∃ v s₁, h.apply r s = (.done { r.symbol with value := some v } false, s₁) ∧
      ∀ r' : Reduction S V, r'.production = r.production → List.Forall₂ (Kin Like false) r.arguments r'.arguments →
        ∃ v' s₁', k.apply r' s' = (.done { r'.symbol with value := some v' } false, s₁') ∧ Like v v' ∧ Near s₁ s₁'
  complain : ∃ react react', h.onError = some react ∧ k.onError = some react' ∧
    (∀ {x x' s s'}, Kin Like false x x' → Near s s' → ∃ s₁ s₁', react (some x) s = (.ok {}, s₁) ∧
      react' (some x') s' = (.ok {}, s₁') ∧ Near s₁ s₁') ∧
    ∀ {s s'}, Near s s' → ∃ s₁, react none s = (.ok {}, s₁) ∧
      ((∃ s₁', react' none s' = (.ok {}, s₁') ∧ Near s₁ s₁') ∨ Fatal s₁ ∧ ∃ e s₁', react' none s' = (.error e, s₁') ∧ Stop e)

variable {h : Host S V σ E} {k : Host S V τ F} {m : Mode} (M : Shadow h k m)

structure Paired (c : Config S V σ) (c' : Config S V τ) : Prop where
  states : c'.states = c.states
  state : c'.state = c.state
  stack : Stacked M.Like m.tracking c.states c.symbols c'.symbols
  lookahead : Option.Rel (Ahead M.Like (m.tracing || m.tracking)) c.lookahead c'.lookahead
  pushback : List.Forall₂ (Option.Rel (Ahead M.Like (m.tracing || m.tracking))) c.pushback c'.pushback
  errorCount : c'.errorCount = c.errorCount
  settled : c'.settled = c.settled
  host : M.Near c.host c'.host

inductive Pursues : Progress S V σ E → Progress S V τ F → Prop
  | running {c : Config S V σ} {c' : Config S V τ} : Paired M c c' → Pursues (.running c) (.running c')
  | finished {v v' : Option V} {c : Config S V σ} {c' : Config S V τ} : Option.Rel M.Like v v' → M.Near c.host c'.host →
      Pursues (.finished v c) (.finished v' c')
  | failed (e : ParseError E) (c : Config S V σ) (r : Progress S V τ F) : Pursues (.failed e c) r
  | cut {e : F} (r : Progress S V σ E) (c' : Config S V τ) : M.Cut e → Pursues r (.failed (.host e) c')
  | stopped {e : F} {c : Config S V σ} (c' : Config S V τ) : M.Fatal c.host → M.Stop e →
      Pursues (.finished none c) (.failed (.host e) c')

variable {M} {t : Tables S} {c : Config S V σ} {c' : Config S V τ} {x x' : StackSymbol S V}

namespace Paired

section

variable (hc : Paired M c c')

include hc

lemma log (log : String) : Paired M c { c' with log := log } :=
  ⟨hc.states, hc.state, hc.stack, hc.lookahead, hc.pushback, hc.errorCount, hc.settled, hc.host⟩

lemma exists_stackText (htracing : m.tracing = true) : ∃ text, stackText k c' = .ok text := by
  have hl := hc.lookahead
  unfold stackText
  generalize c.lookahead = l at hl
  generalize c'.lookahead = l' at hl ⊢
  refine exists_ok_bind ?_ fun _ _ => ⟨_, rfl⟩
  cases hl with
  | none => exact ⟨_, rfl⟩
  | @some x x' hx =>
    cases hx with
    | token hx =>
      obtain ⟨v, v', -, hv', hlike⟩ := hx.value
      obtain ⟨hline, hposition⟩ := hx.place (by rw [htracing]; rfl)
      exact exists_shownSymbol ⟨v', hv', M.display htracing hlike⟩ hline hposition
    | mark _ _ htoken =>
      rw [shownLookahead, shownSymbol, htoken]
      exact ⟨_, rfl⟩

lemma shift (hx : Kin M.Like (m.tracing || m.tracking) x x') (r : Nat) :
    Pursues M (Parser.shift {} x r c) (Parser.shift m x' r c') := by
  refine traced_spec (fun _ => ⟨_, rfl⟩) fun log => .running ?_
  refine ⟨?_, rfl, .push (hx.relax (by simp +contextual)) hc.stack, .none, hc.pushback, ?_, hc.settled, hc.host⟩
  · exact congrArg (r :: ·) hc.states
  · exact congrArg (· - 1) hc.errorCount

lemma accept : Pursues M (Parser.accept h {} c) (Parser.accept k m c') := by
  have hstack := hc.stack
  unfold Parser.accept
  generalize c.states = qs at hstack
  generalize c.symbols = xs at hstack ⊢
  generalize c'.symbols = xs' at hstack ⊢
  cases hstack with
  | bottom q =>
    exact traced_spec (fun htracing => exists_ok_map _ (exists_shownResult (M.display htracing M.nothing)))
      fun log => .finished .none hc.host
  | push hx _ =>
    exact traced_spec (fun htracing => exists_ok_map _ (exists_shownResult (M.display htracing (hx.getD h.nothing _))))
      fun log => .finished hx.value_rel hc.host

lemma reduce (pr : Production S) : Pursues M (Parser.reduce h t {} pr c) (Parser.reduce k t m pr c') := by
  obtain ⟨v, s, happly, hrule⟩ := M.rule ⟨pr, { type := pr.name, value := some h.nothing },
    (c.symbols.take pr.symbols.length).reverse, c.symbols.drop pr.symbols.length⟩ hc.host
  cases hgoto : gotoOf t (c.states.drop pr.symbols.length) pr.name with
  | error e =>
    -- the rule is applied first, and then there is no state to go to
    simp only [Parser.reduce, traced, newSymbol, happly, pushReduced, hgoto, Bool.false_eq_true, if_false]
    exact .failed _ _ _
  | ok r =>
    have hheight : pr.symbols.length < c.states.length := by
      by_contra hge
      rw [drop_eq_nil_of_le (Nat.le_of_not_lt hge)] at hgoto
      cases hgoto
    obtain ⟨htake, hlen, hdrop⟩ := hc.stack.split hheight
    have hargs : List.Forall₂ (Kin M.Like m.tracking) (c.symbols.take pr.symbols.length).reverse
        (c'.symbols.take pr.symbols.length).reverse := rel_reverse htake
    have hgoto' : gotoOf t (c'.states.drop pr.symbols.length) pr.name = .ok r := by rw [hc.states, hgoto]
    rw [reduce_eq happly hgoto]
    refine traced_spec (fun htracing => ?_) fun log => ?_
    · refine exists_ok_bind (exists_shownEntries fun x' hx' => ?_) fun _ _ => exists_ok_bind ⟨r, hgoto'⟩ fun _ _ => ⟨_, rfl⟩
      obtain ⟨x, hx⟩ := exists_kin hargs x' hx'
      obtain ⟨v, v', -, hv', hlike⟩ := hx.value
      exact ⟨v', hv', M.display htracing hlike⟩
    obtain ⟨x, hnew, htype, hplace⟩ := newSymbol_ok (h := k) (m := m) (p := pr)
      (fun x' hx' => (exists_kin hargs x' hx').elim fun _ hx => hx.place) (by rw [length_reverse, hlen])
      { c' with log := log }
    obtain ⟨v', s', happly', hlike, hnear⟩ := hrule
      ⟨pr, x, (c'.symbols.take pr.symbols.length).reverse, c'.symbols.drop pr.symbols.length⟩ rfl
      (hargs.imp fun _ _ hx => hx.relax fun hno => absurd hno Bool.false_ne_true)
    simp only [hnew, happly']
    refine traced_spec (fun htracing => exists_ok_map _ (exists_shownResult (M.display htracing hlike))) fun log => ?_
    simp only [pushReduced, hgoto']
    refine .running ⟨?_, rfl, .push ⟨htype, ⟨v, v', rfl, rfl, hlike⟩, hplace⟩ hdrop, hc.lookahead, hc.pushback,
      hc.errorCount, ?_, hnear⟩
    · simp only [reduced, hc.states]
    · simp only [reduced, hc.settled]

lemma reduceBy (n : Nat) : Pursues M (Parser.reduceBy h t {} n c) (Parser.reduceBy k t m n c') := by
  unfold Parser.reduceBy
  cases t.productions[n]? with
  | none => exact .failed _ _ _
  | some pr => exact hc.reduce pr

lemma panicStep (hx : Ahead M.Like (m.tracing || m.tracking) x x') :
    Pursues M (Parser.panicStep h {} x c) (Parser.panicStep k m x' c') := by
  unfold Parser.panicStep
  rw [hx.type, hc.states]
  split
  · exact .running ⟨rfl, rfl, hc.stack, .none, .nil, hc.errorCount, hc.settled, hc.host⟩
  · rename_i hlen
    split
    · exact .finished .none hc.host
    · rename_i hend
      -- only the bottom of the stack has no place, and it is not reached here
      have htall : 1 < c.states.length := by simpa [hend] using hlen
      obtain ⟨q, qs, top, top', xs, xs', hq, hxs, hxs', htop, hstack⟩ := hc.stack.exists_push htall
      rw [hq, hxs, hxs']
      split
      · dsimp only
        rw [htop.type]
        split
        · obtain ⟨top₁, heq, htop₁⟩ := htop.extended x'
          rw [heq]
          exact .running ⟨rfl, hc.state, .push htop₁ hstack, .none, hc.pushback, hc.errorCount, hc.settled, hc.host⟩
        · have hkin := hx.kin hend
          have herror : Kin M.Like (m.tracing || m.tracking) (errorSymbol h x) (errorSymbol k x') :=
            ⟨rfl, ⟨_, _, rfl, rfl, M.ofToken (hkin.relax fun hno => nomatch hno)⟩, hkin.place⟩
          exact .running ⟨rfl, hc.state, .push htop hstack, .some (.token herror), .cons (.some hx) hc.pushback,
            hc.errorCount, hc.settled, hc.host⟩
      · obtain ⟨x₁, heq, hx₁⟩ := hx.atPlace htop.place
        dsimp only
        rw [heq]
        cases qs with
        | nil => exact absurd rfl hstack.ne_nil
        | cons q' qs => exact .running ⟨rfl, rfl, hstack, .some hx₁, hc.pushback, hc.errorCount, hc.settled, hc.host⟩

lemma report (hx : Ahead M.Like (m.tracing || m.tracking) x x') :
    Pursues M (Parser.report h {} x c) (Parser.report k m x' c') := by
  obtain ⟨react, react', hreact, hreact', htoken, hend⟩ := M.complain
  unfold Parser.report
  rw [hreact, hreact', hx.type]
  by_cases htype : x.type = endMark
  · simp only [if_pos htype]
    obtain ⟨s, heq, ⟨s', heq', hnear⟩ | ⟨hfatal, e, s', heq', hstop⟩⟩ := hend hc.host
    · rw [heq, heq']
      exact panicStep ⟨hc.states, hc.state, hc.stack, hc.lookahead, hc.pushback, rfl, rfl, hnear⟩ hx
    · rw [heq, heq']
      -- the first parser ends here, as there is nothing more to read
      have hfinished : Parser.panicStep h {} x { c with errorCount := recoveryLength, settled := false, host := s } =
          .finished none { c with errorCount := recoveryLength, settled := false, host := s } := panicStep_atEnd htype
      simp only [Bool.false_eq_true, if_false, hfinished]
      exact .stopped _ hfatal hstop
  · simp only [if_neg htype]
    obtain ⟨s, s', heq, heq', hnear⟩ := htoken ((hx.kin htype).relax fun hno => nomatch hno) hc.host
    rw [heq, heq']
    exact panicStep ⟨hc.states, hc.state, hc.stack, hc.lookahead, hc.pushback, rfl, rfl, hnear⟩ hx

lemma recover (hx : Ahead M.Like (m.tracing || m.tracking) x x') :
    Pursues M (Parser.recover h {} x c) (Parser.recover k m x' c') := by
  refine traced_spec (fun htracing => exists_ok_map _ (hc.exists_stackText htracing)) fun log => ?_
  have hlog := hc.log log
  generalize { c' with log := log } = c₁ at hlog ⊢
  change Pursues M (if c.errorCount = 0 || c.settled then Parser.report h {} x c
    else Parser.panicStep h {} x { c with errorCount := recoveryLength }) _
  rw [hlog.errorCount, hlog.settled]
  split
  · exact hlog.report hx
  · exact panicStep ⟨hlog.states, hlog.state, hlog.stack, hlog.lookahead, hlog.pushback, rfl, rfl, hlog.host⟩ hx

end

lemma act (hend : ∀ q r, t.action? q endMark ≠ some (.shift r)) (hc : Paired M c c')
    (hx : Ahead M.Like (m.tracing || m.tracking) x x') : Pursues M (Parser.act h t {} x c) (Parser.act k t m x' c') := by
  unfold Parser.act
  rw [hc.state, hx.type]
  cases hact : t.action? c.state x.type with
  | none => exact hc.recover hx
  | some a =>
    cases a with
    | accept => exact hc.accept
    | reduce n => exact hc.reduceBy n
    | shift r =>
      refine hc.shift (hx.kin fun htype => ?_) r
      exact hend c.state r (htype ▸ hact)

lemma fetch (hc : Paired M c c') (hopen : c.lookahead = none → c.pushback = [] → M.Open c.host) :
    (∃ x x' c₁ c₁', Parser.fetch h c = (.ok x, c₁) ∧ Parser.fetch k c' = (.ok x', c₁') ∧
      Ahead M.Like (m.tracing || m.tracking) x x' ∧ Paired M c₁ c₁') ∨
    ∃ e c₁', Parser.fetch k c' = (.error e, c₁') ∧ M.Cut e := by
  have hl := hc.lookahead
  have hp := hc.pushback
  unfold Parser.fetch
  generalize hla : c.lookahead = l at hl
  generalize hla' : c'.lookahead = l' at hl
  generalize hpb : c.pushback = p at hp
  generalize hpb' : c'.pushback = p' at hp
  cases hl with
  | some hx => exact .inl ⟨_, _, c, c', rfl, rfl, hx, hc⟩
  | none =>
    cases hp with
    | cons ho hrest =>
      have hx := Ahead.getD_atEnd ho
      refine .inl ⟨_, _, _, _, rfl, rfl, hx, ?_⟩
      exact ⟨hc.states, hc.state, hc.stack, .some hx, hrest, hc.errorCount, hc.settled, hc.host⟩
    | nil =>
      rcases M.next (hopen hla hpb) hc.host with ⟨o, s, o', s', hnext, hnext', ho, hnear⟩ | ⟨e, s', hnext', hcut⟩
      · have hx := Ahead.getD_atEnd ho
        rw [hnext, hnext']
        refine .inl ⟨_, _, _, _, rfl, rfl, hx, ?_⟩
        exact ⟨hc.states, hc.state, hc.stack, .some hx, .nil, hc.errorCount, hc.settled, hnear⟩
      · rw [hnext']
        exact .inr ⟨e, _, rfl, hcut⟩

theorem step (hend : ∀ q r, t.action? q endMark ≠ some (.shift r)) (hc : Paired M c c')
    (hopen : c.lookahead = none → c.pushback = [] → M.Open c.host) :
    Pursues M (Parser.step h t {} c) (Parser.step k t m c') := by
  refine traced_spec (fun _ => ⟨_, rfl⟩) fun log => ?_
  have hlog := hc.log log
  generalize { c' with log := log } = c₁ at hlog ⊢
  rw [step_eq, hlog.state]
  cases t.default? c.state with
  | some n =>
    refine traced_spec (fun _ => ⟨_, rfl⟩) fun log => traced_spec
      (fun htracing => exists_ok_map _ ((hlog.log log).exists_stackText htracing)) fun log' => ?_
    exact ((hlog.log log).log log').reduceBy n
  | none =>
    rcases hlog.fetch hopen with ⟨x, x', c₂, c₂', heq, heq', hx, hc₂⟩ | ⟨e, c₂', heq', hcut⟩
    · rw [heq, heq']
      exact traced_spec (fun htracing => exists_ok_map _ (hc₂.exists_stackText htracing)) fun log => (hc₂.log log).act hend hx
    · rw [heq']
      exact .cut _ _ hcut

/-- The second parser goes along with the first for any number of steps, as long as the first reads only where there is
something to read. -/
theorem run {I : Config S V σ → Prop} (hend : ∀ q r, t.action? q endMark ≠ some (.shift r))
    (hopen : ∀ c, I c → c.lookahead = none → c.pushback = [] → M.Open c.host)
    (hI : ∀ c c₁, I c → Parser.step h t {} c = .running c₁ → I c₁) (hc : Paired M c c') (hi : I c) (n : Nat) :
    Pursues M (Parser.run h t {} n c) (Parser.run k t m n c') := by
  induction n generalizing c c' with
  | zero => exact .running hc
  | succ n ih =>
    have hstep := hc.step hend (hopen c hi)
    have hnext := hI c
    rw [Parser.run, Parser.run]
    generalize Parser.step h t {} c = r at hstep hnext ⊢
    generalize Parser.step k t m c' = r' at hstep ⊢
    cases hstep with
    | running hc₁ => exact ih hc₁ (hnext _ hi rfl)
    | finished hv hnear => exact .finished hv hnear
    | failed e c r => exact .failed e c _
    | cut r c' hcut => exact .cut _ c' hcut
    | stopped c' hfatal hstop => exact .stopped c' hfatal hstop

end Paired

theorem parse_pursues (M : Shadow h k m) {I : Config S V σ → Prop} (hend : ∀ q r, t.action? q endMark ≠ some (.shift r))
    (hopen : ∀ c, I c → c.lookahead = none → c.pushback = [] → M.Open c.host)
    (hI : ∀ c c₁, I c → step h t {} c = .running c₁ → I c₁) {s : σ} {s' : τ} (hs : M.Near s s') (n : Nat) {settled : Bool}
    (hi : I (.start s settled)) : Pursues M (parse h t {} n settled s) (parse k t m n settled s') :=
  traced_spec (fun _ => ⟨_, rfl⟩) fun _ =>
    Paired.run hend hopen hI ⟨rfl, rfl, .bottom 0, .none, .nil, rfl, rfl, hs⟩ hi n

end LispKit.Parser
