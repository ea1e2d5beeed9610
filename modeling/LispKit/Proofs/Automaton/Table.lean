import LispKit.Proofs.Automaton.Entry
import LispKit.Proofs.Automaton.Lookahead

/-! Action tables row by row. Without precedences a shift is chosen before a reduction, and of two reductions that of the
production that is declared first. -/

set_option linter.unusedSectionVars false

namespace LispKit

open Vocabulary Collection List

variable {S : Type} [DecidableEq S] [Vocabulary S] {g : Grammar S} {p : Production S} {c : Collection S} {start : S}

structure Grammar.Flat (g : Grammar S) : Prop where
  precedence : g.precedence = {}
  production : ∀ p ∈ g.all, p.precedence = .default

namespace Grammar.Flat

variable (h : g.Flat)

include h

lemma precedenceOf (s : S) : g.precedenceOf s = .default := by
  rw [Grammar.precedenceOf, h.precedence]
  rfl

lemma productionPrecedence (n : Nat) : Draft.productionPrecedence g n = .default := by
  unfold Draft.productionPrecedence
  split
  · rfl
  · rename_i p hp
    apply h.production
    cases n with
    | zero => exact mem_append_left _ (Option.mem_toList.mpr hp)
    | succ n => exact mem_append_right _ (mem_of_getElem? hp)

lemma resolve (t : S) (k n : Nat) :
    (g.precedenceOf t).resolve (Draft.productionPrecedence g n) k n = some (.shift k) := by
  rw [h.precedenceOf, h.productionPrecedence]
  exact resolve_shift (.inr ⟨rfl, rfl⟩)

end Grammar.Flat

namespace Draft

variable {d d' : Draft S} {t : S} {state : Nat} {a b : Action} {pr : Proposal S} {prs : List (Proposal S)}

section Chosen

/-- Each entry that stands, and each action that is proposed, is followed by an entry in a given relation to it. -/
theorem Placed.followed {R : Action → Action → Prop} (hrefl : ∀ a, R a a) (htrans : ∀ {a b e}, R a b → R b e → R a e)
    {I : Draft S → Prop} (h : Placed g state prs d d') (ho : d.Owned) (hd : ∀ t, d.actions.get? t ≠ some none)
    (hI : ∀ {prs d}, Placed g state prs d d' → d.Owned → I d)
    (hstep : ∀ {d pr d₁}, pr ∈ prs → Places g state d pr d₁ → d.Owned → I d₁ → d.actions.get? pr.symbol ≠ some none →
      ∃ b, settle g pr.symbol (d.actions.get? pr.symbol) pr.action = some b ∧ R b pr.action ∧
        ∀ a, d.actions.get? pr.symbol = some (some a) → R b a) : (∀ t, d'.actions.get? t ≠ some none) ∧
    (∀ {t a}, d.actions.get? t = some (some a) → ∃ b, d'.actions.get? t = some (some b) ∧ R b a) ∧
    ∀ pr ∈ prs, ∃ b, d'.actions.get? pr.symbol = some (some b) ∧ R b pr.action := by
  induction h with
  | nil d => exact ⟨hd, fun ha => ⟨_, ha, hrefl _⟩, forall_mem_nil _⟩
  | @cons pr prs d d₁ d' hpr hprs ih =>
    have hsets := (hpr.effect ho).sets
    have ho₁ : d₁.Owned := ho.of_sets hsets
    obtain ⟨b, hb, hnew, hold⟩ := hstep mem_cons_self hpr ho (hI hprs ho₁) (hd _)
    have hself : d₁.actions.get? pr.symbol = some (some b) := hb ▸ hsets.1
    have hd₁ : ∀ t, d₁.actions.get? t ≠ some none := by
      intro t
      by_cases ht : pr.symbol = t
      · subst ht
        simp [hself]
      · rw [(hsets.2.2 t ht).1]
        exact hd t
    obtain ⟨hnone, hkept, hprs'⟩ := ih ho₁ hd₁ hI fun hmem => hstep (mem_cons_of_mem _ hmem)
    obtain ⟨e, he, hbe⟩ := hkept hself
    refine ⟨hnone, fun {t a} ha => ?_, forall_mem_cons.mpr ⟨⟨e, he, htrans hbe hnew⟩, hprs'⟩⟩
    by_cases ht : pr.symbol = t
    · subst ht
      exact ⟨e, he, htrans hbe (hold a ha)⟩
    · rw [← (hsets.2.2 t ht).1] at ha
      exact hkept ha

def Beats (g : Grammar S) : Action → Action → Prop
  | .shift _, b => b ≠ .accept
  | .reduce m, .reduce n => productionLine g m ≤ productionLine g n
  | .accept, .accept => True
  | _, _ => False

lemma Beats.refl (a : Action) : Beats g a a := by
  cases a with
  | reduce n => exact Int.le_refl _
  | shift r => exact fun h => by cases h
  | accept => trivial

lemma Beats.trans {a b e : Action} (h : Beats g a b) (h' : Beats g b e) : Beats g a e := by
  cases a with
  | shift r =>
    rintro rfl
    cases b with
    | shift _ => exact h' rfl
    | reduce _ => cases h'
    | accept => exact h rfl
  | accept =>
    cases b with
    | accept => exact h'
    | shift _ => cases h
    | reduce _ => cases h
  | reduce m =>
    cases b with
    | reduce n =>
      cases e with
      | reduce k => exact Int.le_trans h h'
      | shift r => cases h'
      | accept => cases h'
    | shift r => cases h
    | accept => cases h

def AreSame (a b : Action) : Prop :=
  a = b ∨ (∃ k, a = .shift k) ∧ ∃ k, b = .shift k

lemma AreSame.refl (a : Action) : AreSame a a :=
  .inl rfl

lemma AreSame.trans {a b e : Action} (h : AreSame a b) (h' : AreSame b e) : AreSame a e := by
  rcases h with rfl | ⟨ha, hb⟩
  · exact h'
  · rcases h' with rfl | ⟨-, he⟩
    · exact .inr ⟨ha, hb⟩
    · exact .inr ⟨ha, he⟩

variable (hg : g.Flat)

include hg

lemma settle_beats {e : Option (Option Action)} (he : e ≠ some none) (hacc : e ≠ some (some .accept)) (ha : a ≠ .accept) :
    ∃ b, settle g t e a = some b ∧ Beats g b a ∧ ∀ o, e = some (some o) → Beats g b o := by
  rcases e with _ | _ | k | m | _
  · exact ⟨a, rfl, .refl a, fun _ h => by cases h⟩
  · exact absurd rfl he
  · cases a with
    | shift r => exact ⟨_, rfl, ha, fun _ h => by cases h; exact Beats.refl _⟩
    | reduce n => exact ⟨_, hg.resolve t k n, ha, fun _ h => by cases h; exact Beats.refl _⟩
    | accept => exact absurd rfl ha
  · cases a with
    | shift r => exact ⟨_, hg.resolve t r m, ha, fun _ h => by cases h; exact fun h => by cases h⟩
    | reduce n =>
      refine ⟨_, rfl, ?_, ?_⟩
      · split
        · exact Int.le_refl _
        · rename_i hlt
          exact Int.not_lt.mp hlt
      · rintro _ ⟨⟩
        split
        · rename_i hlt
          exact Int.le_of_lt hlt
        · exact Int.le_refl _
    | accept => exact absurd rfl ha
  · exact absurd rfl hacc

lemma Placed.beats (h : Placed g state prs d d') (ho : d.Owned) (hd : ∀ t, d.actions.get? t ≠ some none)
    (ha : ∀ pr ∈ prs, pr.action ≠ .accept) : (∀ t, d'.actions.get? t ≠ some none) ∧
    (∀ {t a}, d.actions.get? t = some (some a) → ∃ b, d'.actions.get? t = some (some b) ∧ Beats g b a) ∧
    ∀ pr ∈ prs, ∃ b, d'.actions.get? pr.symbol = some (some b) ∧ Beats g b pr.action :=
  h.followed Beats.refl Beats.trans (I := fun _ => True) ho hd (fun _ _ => trivial) fun hmem hpr ho _ hne =>
    settle_beats hg hne (fun hacc => ha _ hmem ((hpr.effect ho).standing hacc)) (ha _ hmem)

lemma Places.noted (h : Places g state d pr d') (hc : Clash (d.actions.get? pr.symbol) pr.action) : d'.shiftReduce ≠ [] := by
  cases h with
  | accept item =>
    dsimp only at hc
    generalize d.actions.get? endMark = e at hc
    cases hc
  | @shift s item k d' heq =>
    have hcurrent : (d.propose s item (.shift k)).current s = (d.actions.get? s).join := rfl
    dsimp only at hc
    generalize he : d.actions.get? s = e at hc
    cases hc with
    | reduce n k =>
      simp only [addShift, hcurrent, he, Option.join_some] at heq
      obtain ⟨rfl, -⟩ := Prod.mk.inj heq
      simp [shiftOverReduce, hg.precedenceOf, hg.productionPrecedence, Precedence.default, noteShiftReduce]
  | @reduce s item d' heq =>
    have hcurrent : (d.propose s item (.reduce item.number)).current s = (d.actions.get? s).join := rfl
    dsimp only at hc
    generalize he : d.actions.get? s = e at hc
    cases hc with
    | shift k n =>
      simp only [addReduction, hcurrent, he, Option.join_some] at heq
      obtain ⟨rfl, -⟩ := Prod.mk.inj heq
      simp [reduceOverShift, hg.precedenceOf, hg.productionPrecedence, Precedence.default, noteShiftReduce]

lemma Placed.stands (h : Placed g state prs d d') (ho : d.Owned) (hd : ∀ t, d.actions.get? t ≠ some none)
    (ha : ∀ pr ∈ prs, pr.action ≠ .accept) (hs : d'.Silent) :
    (∀ {t a}, d.actions.get? t = some (some a) → ∃ b, d'.actions.get? t = some (some b) ∧ AreSame b a) ∧
    ∀ pr ∈ prs, ∃ b, d'.actions.get? pr.symbol = some (some b) ∧ AreSame b pr.action := by
  refine (h.followed AreSame.refl AreSame.trans (I := Silent) ho hd (fun hp ho => hp.silent ho hs) ?_).2
  intro d pr d₁ hmem hpr ho hs hne
  have heffect := hpr.effect ho
  have hclash : ¬Clash (d.actions.get? pr.symbol) pr.action := fun hc => hpr.noted hg hc hs.1
  have hrival : ∀ m n, d.actions.get? pr.symbol = some (some (.reduce m)) → pr.action ≠ .reduce n := by
    rcases heffect.reduceReduce with ⟨-, hother⟩ | ⟨m, n, -, -, heq | heq⟩
    · exact hother
    · exact absurd (heq.symm.trans hs.2) (by simp)
    · exact absurd (heq.symm.trans hs.2) (by simp)
  have hacc : d.actions.get? pr.symbol ≠ some (some .accept) := fun hacc => ha pr hmem (heffect.standing hacc)
  generalize d.actions.get? pr.symbol = e at hne hclash hrival hacc ⊢
  rcases e with _ | _ | k | m | _
  · exact ⟨_, rfl, .inl rfl, fun _ h => by cases h⟩
  · exact absurd rfl hne
  · cases hact : pr.action with
    | shift r =>
      refine ⟨_, rfl, .inr ⟨⟨_, rfl⟩, _, rfl⟩, ?_⟩
      rintro _ ⟨⟩
      exact .inl rfl
    | reduce n => exact absurd (hact ▸ .shift k n) hclash
    | accept => exact absurd hact (ha pr hmem)
  · cases hact : pr.action with
    | shift r => exact absurd (hact ▸ .reduce m r) hclash
    | reduce n => exact absurd hact (hrival m n rfl)
    | accept => exact absurd hact (ha pr hmem)
  · exact absurd rfl hacc

omit hg

lemma exists_places (ha : (∃ k, pr.action = .shift k) ∨ pr.action = .reduce pr.item.number)
    (hd : d.actions.get? pr.symbol ≠ some (some .accept)) : ∃ d', Places g state d pr d' := by
  obtain ⟨s, item, a⟩ := pr
  dsimp only at ha hd
  rcases ha with ⟨k, rfl⟩ | rfl
  · have hcurrent : (d.propose s item (.shift k)).current s = (d.actions.get? s).join := rfl
    suffices ∃ d', addShift g state item d s k = (d', none) from this.imp fun _ => .shift
    simp only [addShift, hcurrent]
    rcases he : d.actions.get? s with _ | _ | _ | _ | _
    any_goals exact ⟨_, rfl⟩
    exact absurd he hd
  · have hcurrent : (d.propose s item (.reduce item.number)).current s = (d.actions.get? s).join := rfl
    suffices ∃ d', addReduction g state item d s = (d', none) from this.imp fun _ => .reduce
    simp only [addReduction, hcurrent]
    rcases he : d.actions.get? s with _ | _ | _ | _ | _
    any_goals exact ⟨_, rfl⟩
    exact absurd he hd

lemma exists_placed (ho : d.Owned) (ha : ∀ pr ∈ prs, (∃ k, pr.action = .shift k) ∨ pr.action = .reduce pr.item.number)
    (hd : ∀ t, d.actions.get? t ≠ some (some .accept)) : ∃ d', Placed g state prs d d' := by
  induction prs generalizing d with
  | nil => exact ⟨d, .nil d⟩
  | cons pr prs ih =>
    obtain ⟨hpr, hprs⟩ := forall_mem_cons.mp ha
    obtain ⟨d₁, hd₁⟩ := exists_places hpr (hd pr.symbol)
    have hplaced : Placed g state [pr] d d₁ := .cons hd₁ (.nil d₁)
    have hopen : ∀ t, d₁.actions.get? t ≠ some (some .accept) := by
      intro t ht
      rcases hplaced.proposed ho ht with ht | ⟨pr', hmem, -, hact⟩
      · exact hd t ht
      · obtain rfl := mem_singleton.mp hmem
        rcases hpr with ⟨k, hk⟩ | hk
        · cases hk.symm.trans hact
        · cases hk.symm.trans hact
    obtain ⟨d', hd'⟩ := ih (ho.of_sets (hd₁.effect ho).sets) hprs hopen
    exact ⟨d', .cons hd₁ hd'⟩

end Chosen

end Draft

lemma buildRows_eq {lookaheads : List (Lookahead.Entry S)} (k : Nat) (sts : List (ItemSet S)) (t : Table S)
    (h : ∀ j st, sts[j]? = some st → ∃ d, Draft.addItems g c lookaheads (k + j) st.items {} = (d, none)) :
    ∃ rows, Table.buildRows g c lookaheads k sts t = { t with rows := t.rows ++ rows } ∧ rows.length = sts.length ∧
      ∀ j st, sts[j]? = some st → ∃ d, Draft.addItems g c lookaheads (k + j) st.items {} = (d, none) ∧
        rows[j]? = some ⟨st.items, d, Table.gotosOf g c (k + j) st.items⟩ := by
  induction sts generalizing k t with
  | nil => exact ⟨[], by simp [Table.buildRows], rfl, fun j st hst => by simp at hst⟩
  | cons st sts ih =>
    obtain ⟨d, hd⟩ := h 0 st rfl
    rw [Nat.add_zero] at hd
    have hrest : ∀ j st', sts[j]? = some st' → ∃ d, Draft.addItems g c lookaheads (k + 1 + j) st'.items {} = (d, none) := by
      intro j st' hst
      rw [Nat.add_assoc, Nat.add_comm 1 j]
      exact h (j + 1) st' hst
    obtain ⟨rows, hrows, hlen, hget⟩ := ih (k + 1)
      { t with rows := t.rows ++ [⟨st.items, d, Table.gotosOf g c k st.items⟩] } hrest
    refine ⟨⟨st.items, d, Table.gotosOf g c k st.items⟩ :: rows, ?_, by simp [hlen], ?_⟩
    · rw [Table.buildRows, hd]
      simp only [hrows, append_assoc, singleton_append]
    · intro j st' hst
      cases j with
      | zero =>
        obtain rfl := Option.some.inj hst
        exact ⟨d, hd, rfl⟩
      | succ j =>
        obtain ⟨d', hd', hrow⟩ := hget j st' hst
        rw [Nat.add_assoc, Nat.add_comm 1 j] at hd' hrow
        exact ⟨d', hd', hrow⟩

lemma lookup_gotosOf {q : Nat} {items : List (Item S)} {s : S} : (Table.gotosOf g c q items).lookup s =
      if s ∈ symbolsOf items ∧ g.isNonterminal s = true then c.goto? q s else none := by
  have hlookup : ∀ ss : List S, (ss.filterMap fun s => (c.goto? q s).map (s, ·)).lookup s =
      if s ∈ ss then c.goto? q s else none := by
    intro ss
    induction ss with
    | nil => rfl
    | cons a ss ih =>
      rw [filterMap_cons]
      by_cases ha : s = a
      · subst ha
        cases hgoto : c.goto? q s with
        | none => simp [ih, hgoto]
        | some r => simp
      · have hne : (s == a) = false := beq_eq_false_iff_ne.mpr ha
        cases hgoto : c.goto? q a with
        | none => simp [ih, ha]
        | some r => simp [lookup_cons, hne, ih, ha]
  simp only [Table.gotosOf, hlookup, mem_filter]

lemma buildTable_eq (h : g.Known) (ha : g.augmented = some p) : ∃ g',
    g.buildTable = ((Table.build g p).error?.elim (.ok ()) (.error ·.failure), Table.build g p, g') := by
  have hfollow : ({ g with first := g.firsts }.computeFollow none).1 = .ok () := by
    refine Grammar.computeFollow_ok h.follow h.nonempty ?_ ?_
    · have hmark := Grammar.contains_firsts (g := g) (s := endMark) (.inr (.inr rfl))
      change g.firsts.isEmpty = false
      cases hentries : g.firsts.entries with
      | nil => simp [Registry.contains, hentries] at hmark
      | cons _ _ => simp [Registry.isEmpty, hentries]
    · intro pr hpr s hs
      rcases h.symbol pr hpr s hs with ht | hn
      · exact Grammar.contains_firsts (.inl ht)
      · exact Grammar.contains_firsts (.inr (.inl hn))
  obtain ⟨withFirst, hfirst, hfollow⟩ :
      ∃ withFirst, g.computeFirst = (.ok (), withFirst) ∧ (withFirst.computeFollow none).1 = .ok () :=
    ⟨_, Grammar.computeFirst_ok h.first h.defined, hfollow⟩
  rcases hpair : withFirst.computeFollow none with ⟨r, withFollow⟩
  rw [hpair] at hfollow
  obtain rfl : r = .ok () := hfollow
  simp only [Grammar.buildTable, ha, hfirst, hpair]
  cases (Table.build g p).error? with
  | none => exact ⟨_, rfl⟩
  | some e => exact ⟨_, rfl⟩

lemma buildTable_table (h : g.Known) (ha : g.augmented = some p) : g.buildTable.2.1 = Table.build g p := by
  obtain ⟨g', heq⟩ := buildTable_eq h ha
  rw [heq]

end LispKit
