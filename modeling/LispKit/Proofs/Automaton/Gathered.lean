import LispKit.Proofs.Automaton.Component
import LispKit.Proofs.Automaton.Context

/-! What is found as lookaheads: all that comes after the step a production began with, and what links pass on beyond it.

A symbol is passed on from a step to the steps at the end of the productions of its name. The productions are looked up
in the state of the step, and those that were begun earlier are found along with those that begin there. Steps that read
past one another share a set. -/

namespace LispKit.Lookahead

open Vocabulary Collection Relation List

variable {S : Type} [DecidableEq S] [Vocabulary S] {g : Grammar S} {p : Production S} {c : Collection S} {start : S}

def Passes (g : Grammar S) (c : Collection S) (d : Nat) (u v : Transition S) : Prop :=
  ∃ (pr : Production S) (before after : List S), pr.dotted d ∈ c.itemsOf u.1 ∧ pr.name = u.2 ∧
    pr.symbols.drop d = before ++ v.2 :: after ∧ (∀ a ∈ after, a ∈ g.nullable) ∧ c.reach? u.1 before = some v.1

def ReadTogether (g : Grammar S) (c : Collection S) (u v : Transition S) : Prop :=
  Digraph.Leads (reads c g.nullable) u v ∧ Digraph.Leads (reads c g.nullable) v u

/-- The state of a step holds a production of its name of which `d` symbols have been read. The rest of it leads to the
item's state, and the item is taken for its end. -/
def LooksBack (c : Collection S) (d : Nat) (u : Transition S) (q : Nat) (i : Item S) : Prop :=
  ∃ pr : Production S, pr.dotted d ∈ c.itemsOf u.1 ∧ pr.name = u.2 ∧ c.reach? u.1 (pr.symbols.drop d) = some q ∧
    repeats i (pr.dotted d) = true

inductive Gathered (g : Grammar S) (c : Collection S) : Transition S → S → Prop
  | comes {u : Transition S} {t : S} : u ∈ transitions g c → ComesAfter g c u.1 u.2 t → Gathered g c u t
  | passed {d : Nat} {u v : Transition S} {t : S} : u ∈ transitions g c → v ∈ transitions g c → Passes g c d u v →
      Gathered g c u t → Gathered g c v t
  | shared {u v : Transition S} {t : S} : u ∈ transitions g c → v ∈ transitions g c → ReadTogether g c u v →
      Gathered g c u t → Gathered g c v t

section Walks

variable {nullable : List S} {known : Transition S → Bool}

lemma of_mem_walk_snd {q r final : Nat} {s : S} {ss : List S} (hreach : c.reach? q ss = some final)
    (h : (r, s) ∈ (walk g c nullable known q ss).2) :
    ∃ before after, ss = before ++ s :: after ∧ c.reach? q before = some r ∧ known (r, s) = true ∧
      ∀ a ∈ after, a ∈ nullable := by
  induction ss generalizing q with
  | nil => cases h
  | cons a ss ih =>
    rw [reach?_cons] at hreach
    obtain ⟨q', hq', hreach⟩ := Option.bind_eq_some_iff.mp hreach
    rw [walk, target_eq hq'] at h
    rcases mem_append.mp h with h | h
    · split at h
      · rename_i hknown
        obtain ⟨rfl, rfl⟩ := Prod.mk.inj (mem_singleton.mp h)
        rw [Bool.and_eq_true, all_eq_true] at hknown
        refine ⟨[], ss, rfl, rfl, hknown.1, fun a ha => ?_⟩
        have := hknown.2 a ha
        simp only [Bool.and_eq_true] at this
        exact contains_iff_mem.mp this.2
      · cases h
    · obtain ⟨before, after, rfl, hbefore, hrest⟩ := ih hreach h
      refine ⟨a :: before, after, rfl, ?_, hrest⟩
      rw [reach?_cons, hq', Option.bind_some, hbefore]

variable (hc : Explored g p c) {u v : Transition S} {i : Item S}

include hc

lemma of_mem_walksOf {w : Nat × List (Transition S)} (h : (i, w) ∈ walksOf g c nullable known u) :
    ∃ pr ∈ g.all, ∃ d q, i = pr.dotted d ∧ pr.dotted d ∈ c.itemsOf u.1 ∧ pr.name = u.2 ∧
      c.reach? u.1 (pr.symbols.drop d) = some q ∧ w = walk g c nullable known u.1 (pr.symbols.drop d) ∧ w.1 = q := by
  obtain ⟨j, hj, heq⟩ := mem_map.mp h
  obtain ⟨rfl, rfl⟩ := Prod.mk.inj heq
  obtain ⟨hmem, hname⟩ := mem_filter.mp hj
  obtain ⟨pr, hpr, d, -, rfl⟩ := hc.belongs hmem
  obtain ⟨q, hq, -⟩ := hc.dotted_add_mem hmem (append_nil _).symm
  exact ⟨pr, hpr, d, q, rfl, hmem, of_decide_eq_true hname, hq, rfl, walk_fst hq⟩

lemma mem_includedIn_iff (hs : Sorted g) :
    v ∈ includedIn g c g.nullable (transitions g c).contains u ↔ v ∈ transitions g c ∧ ∃ d, Passes g c d u v := by
  constructor
  · intro h
    obtain ⟨⟨i, w⟩, hw, hv⟩ := mem_flatMap.mp h
    obtain ⟨pr, -, d, q, rfl, hmem, hname, hreach, rfl, -⟩ := of_mem_walksOf hc hw
    obtain ⟨before, after, hsym, hbefore, hknown, hafter⟩ := of_mem_walk_snd (r := v.1) (s := v.2) hreach hv
    exact ⟨contains_iff_mem.mp hknown, d, pr, before, after, hmem, hname, hsym, hafter, hbefore⟩
  · rintro ⟨hv, d, pr, before, after, hmem, hname, hsym, hafter, hbefore⟩
    refine mem_flatMap.mpr
      ⟨(pr.dotted d, walk g c g.nullable (transitions g c).contains u.1 (pr.symbols.drop d)), ?_, ?_⟩
    · exact mem_map.mpr ⟨pr.dotted d, mem_filter.mpr ⟨hmem, decide_eq_true hname⟩, rfl⟩
    · dsimp only
      rw [hsym]
      refine mem_walk_snd (r := v.1) (s := v.2) hbefore (contains_iff_mem.mpr hv) fun a ha => ⟨?_, hafter a ha⟩
      by_contra hterm
      rw [Bool.not_eq_false] at hterm
      have := hs.vanishing (hafter a ha)
      rw [hs.apart hterm] at this
      cases this

lemma mem_lookbacksOf_iff {q : Nat} :
    (q, i) ∈ lookbacksOf g c nullable known u ↔ i ∈ c.itemsOf q ∧ ∃ d, LooksBack c d u q i := by
  constructor
  · intro h
    obtain ⟨⟨i, w⟩, hw, hi⟩ := mem_flatMap.mp h
    obtain ⟨pr, -, d, r, rfl, hmem, hname, hreach, -, hfinal⟩ := of_mem_walksOf hc hw
    obtain ⟨j, hj, heq⟩ := mem_map.mp hi
    obtain ⟨rfl, rfl⟩ := Prod.mk.inj heq
    obtain ⟨hj, hrepeats⟩ := mem_filter.mp hj
    exact ⟨hj, d, pr, hmem, hname, hfinal ▸ hreach, hrepeats⟩
  · rintro ⟨hi, d, pr, hmem, hname, hreach, hrepeats⟩
    refine mem_flatMap.mpr ⟨(pr.dotted d, walk g c nullable known u.1 (pr.symbols.drop d)), ?_, ?_⟩
    · exact mem_map.mpr ⟨pr.dotted d, mem_filter.mpr ⟨hmem, decide_eq_true hname⟩, rfl⟩
    · rw [walk_fst hreach]
      exact mem_map.mpr ⟨_, mem_filter.mpr ⟨hi, hrepeats⟩, rfl⟩

end Walks

section Bounds

variable (hs : Sorted g) (hc : Explored g p c) {u v : Transition S} {t : S}

lemma lt_of_mem_transitions (hu : u ∈ transitions g c) : u.1 < c.states.length := by
  obtain ⟨i, hi, -, -⟩ := mem_transitions.mp hu
  unfold itemsOf at hi
  split at hi
  · cases hi
  · rename_i hst
    exact (List.getElem?_eq_some_iff.mp hst).1

include hc

lemma goto?_eq_target (hu : u ∈ transitions g c) : c.goto? u.1 u.2 = some (target c u) := by
  obtain ⟨i, hi, hnext, -⟩ := mem_transitions.mp hu
  obtain ⟨pr, -, d, -, rfl⟩ := hc.belongs hi
  obtain ⟨r, hr⟩ := hc.exists_goto? hi hnext
  rw [target, hr, Option.getD_some]

include hs

lemma follows_of_reads (hu : u ∈ transitions g c) (h : Digraph.Leads (reads c g.nullable) u v)
    (ht : t ∈ directReads g c start v) : Follows g c start u.1 u.2 t := by
  have hdirect : (Starts g c (target c v) t) ∨ v = (0, start) ∧ t = endMark := by
    have hterm : t ∈ distinct ((aheadOf c v).filter g.isTerminal) → Starts g c (target c v) t := by
      rw [mem_distinct, mem_filter]
      rintro ⟨hahead, hterm⟩
      obtain ⟨i, hi, hnext⟩ := mem_filterMap.mp hahead
      exact .here hi hnext hterm
    unfold directReads at ht
    split at ht
    · rename_i hfirst
      rw [Bool.and_eq_true, decide_eq_true_eq, decide_eq_true_eq] at hfirst
      rcases mem_append.mp ht with ht | ht
      · exact .inl (hterm ht)
      · exact .inr ⟨Prod.ext hfirst.1 hfirst.2, mem_singleton.mp ht⟩
    · exact .inl (hterm ht)
  have hstarts : ∀ {x}, Digraph.Leads (reads c g.nullable) x v → x ∈ transitions g c →
      Starts g c (target c v) t → Starts g c (target c x) t := by
    intro x hx
    induction hx using ReflTransGen.head_induction_on with
    | refl => exact fun _ h => h
    | head hstep _ ih =>
      intro _ h
      have hmem := reads_mem_transitions hs hstep
      obtain ⟨a, ha, rfl⟩ := mem_map.mp hstep
      obtain ⟨ha, hnull⟩ := mem_filter.mp ha
      obtain ⟨i, hi, hnext⟩ := mem_filterMap.mp ha
      exact .past hi hnext (contains_iff_mem.mp hnull) (goto?_eq_target hc hmem) (ih hmem h)
  rcases hdirect with hv | ⟨rfl, rfl⟩
  · exact .starts (goto?_eq_target hc hu) (hstarts h hu hv)
  · -- no step leads back to the first state, so nothing reads past the step over the start
    rcases ReflTransGen.cases_tail h with rfl | ⟨w, hw, hstep⟩
    · exact .last
    · have hmem : w ∈ transitions g c := by
        clear hstep
        induction hw with
        | refl => exact hu
        | tail _ hstep _ => exact reads_mem_transitions hs hstep
      obtain ⟨a, -, heq⟩ := mem_map.mp hstep
      have hzero := goto?_eq_target hc hmem
      rw [(Prod.mk.inj heq).1] at hzero
      exact absurd hzero hc.goto?_ne_zero

lemma mem_readSets (hu : u ∈ transitions g c) (ht : t ∈ (Digraph.solve (transitions g c) (reads c g.nullable)
      (Slots.ofLists (transitions g c) (directReads g c start))).get u) : Follows g c start u.1 u.2 t := by
  obtain ⟨v, hleads, hgiven⟩ := (Digraph.mem_solve_ofLists (fun x _ y hy => reads_mem_transitions hs hy) hu).mp ht
  exact follows_of_reads hs hc hu hleads hgiven

variable (hr : g.Ready p start) (hend : g.endless = [])

include hr hend

theorem gathered_of_mem_followSets (hu : u ∈ transitions g c) (ht : t ∈ (following g c start).get u) :
    Gathered g c u t := by
  have hnext : ∀ x ∈ transitions g c, ∀ y ∈ reads c g.nullable x, y ∈ transitions g c :=
    fun x _ y hy => reads_mem_transitions hs hy
  have hcells := Digraph.hasCells_ofLists (transitions g c) (directReads g c start)
  obtain ⟨v, hv, hlinked, hgiven⟩ := Digraph.exists_linked_of_mem_solve
    (fun x _ y hy => (mem_includes.mp hy).1) (Digraph.hasCells_solve hnext hcells) hu ht
  have hlast : Gathered g c v t :=
    .comes hv (comesAfter_of_follows hr hend hc (mem_readSets hs hc hv hgiven) (lt_of_mem_transitions hv))
  clear ht
  induction hlinked using ReflTransGen.head_induction_on with
  | refl => exact hlast
  | head hstep _ ih =>
    rcases hstep with hincl | ⟨-, hw, hown⟩
    · obtain ⟨hw, hpass⟩ := mem_includes.mp hincl
      obtain ⟨-, d, hpass⟩ := (mem_includedIn_iff hc hs).mp hpass
      exact .passed hw hu hpass (ih hw)
    · have howners : ∀ x ∈ transitions g c, ∀ y ∈ transitions g c,
          (Slots.ofLists (transitions g c) (directReads g c start)).owner.getD x 0 =
            (Slots.ofLists (transitions g c) (directReads g c start)).owner.getD y 0 → x = y :=
        fun x hx y hy => Digraph.eq_of_owner_ofLists hx hy
      exact .shared hw hu ⟨Digraph.leads_of_owner_eq hnext hcells howners hw hu hown.symm,
        Digraph.leads_of_owner_eq hnext hcells howners hu hw hown⟩ (ih hw)

end Bounds

section Exact

variable {u v : Transition S} {t : S}

lemma Passes.comesAfter (hc : Explored g p c) (h : Passes g c 0 u v)
    (ht : ComesAfter g c u.1 u.2 t) : ComesAfter g c v.1 v.2 t := by
  obtain ⟨pr, before, after, hmem, hname, hsym, hafter, hbefore⟩ := h
  obtain ⟨x, y, hx, hy, hsent⟩ := ht
  obtain ⟨pr', hpr', d, -, heq⟩ := hc.belongs hmem
  rw [← hname, show pr.name = pr'.name from congrArg Item.name heq] at hsent
  rw [drop_zero, show pr.symbols = pr'.symbols from congrArg Item.symbols heq] at hsym
  refine ⟨x ++ before, y, ?_, hy, hsent.expand hpr' hy hsym (Grammar.exists_rightmost_nil hafter _)⟩
  rw [reach?_append, hx, Option.bind_some, hbefore]

lemma eq_of_repeats {pr pr' : Production S}
    (h : repeats (pr.dotted pr.symbols.length) (pr'.dotted 0) = true) : pr.name = pr'.name ∧ pr.symbols = pr'.symbols := by
  simp only [repeats, Production.dotted, Item.marked, Bool.and_eq_true] at h
  obtain ⟨⟨hname, hlen⟩, hsym⟩ := h
  have hlen := of_decide_eq_true hlen
  have hsym : pr.symbols = pr'.symbols.take pr.symbols.length := by simpa using of_decide_eq_true hsym
  refine ⟨of_decide_eq_true hname, ?_⟩
  rwa [hlen, take_length] at hsym

lemma LooksBack.isLookahead {q : Nat} {pr : Production S} (h : LooksBack c 0 u q (pr.dotted pr.symbols.length))
    (ht : ComesAfter g c u.1 u.2 t) : IsLookahead g c q pr t := by
  obtain ⟨pr', -, hname, hreach, hrepeats⟩ := h
  obtain ⟨hname', hsym⟩ := eq_of_repeats hrepeats
  refine isLookahead_iff.mpr ⟨u.1, ?_, ?_⟩
  · rw [hsym]
    exact hreach
  · rw [hname', hname]
    exact ht

/-- The links that should not be there add nothing: those of productions that were begun before the step, and those of
steps that share a set. -/
structure Harmless (g : Grammar S) (c : Collection S) : Prop where
  stray : ∀ {d u v t}, 0 < d → u ∈ transitions g c → v ∈ transitions g c → Passes g c d u v →
    ComesAfter g c u.1 u.2 t → ComesAfter g c v.1 v.2 t
  shared : ∀ {u v t}, u ∈ transitions g c → v ∈ transitions g c → ReadTogether g c u v →
    ComesAfter g c u.1 u.2 t → ComesAfter g c v.1 v.2 t
  back : ∀ {d u q t} {pr : Production S}, 0 < d → u ∈ transitions g c →
    LooksBack c d u q (pr.dotted pr.symbols.length) → ComesAfter g c u.1 u.2 t → IsLookahead g c q pr t

lemma Harmless.comesAfter (h : Harmless g c) (hc : Explored g p c) (ht : Gathered g c u t) :
    ComesAfter g c u.1 u.2 t := by
  induction ht with
  | comes _ ht => exact ht
  | @passed d u v t hu hv hpass _ ih =>
    rcases Nat.eq_zero_or_pos d with rfl | hd
    · exact hpass.comesAfter hc ih
    · exact h.stray hd hu hv hpass ih
  | shared hu hv htogether _ ih => exact h.shared hu hv htogether ih

lemma Harmless.isLookahead (h : Harmless g c) (hc : Explored g p c) {d : Nat} {q : Nat} {pr : Production S}
    (hu : u ∈ transitions g c) (hback : LooksBack c d u q (pr.dotted pr.symbols.length))
    (ht : Gathered g c u t) : IsLookahead g c q pr t := by
  rcases Nat.eq_zero_or_pos d with rfl | hd
  · exact hback.isLookahead (h.comesAfter hc ht)
  · exact h.back hd hu hback (h.comesAfter hc ht)

variable (hr : g.Ready p start) (hs : Sorted g) (hc : Explored g p c) {q : Nat} {pr : Production S}

include hr hs hc

theorem exists_compute (hpr : pr ∈ g.productions) (hi : pr.dotted pr.symbols.length ∈ c.itemsOf q) :
    ∃ found, find? (compute g c start) q (pr.dotted pr.symbols.length) = some found ∧
      ∀ t, IsLookahead g c q pr t → t ∈ found := by
  obtain ⟨q₀, hreach, h0⟩ := hc.begin_of_mem hi
  rw [take_length] at hreach
  obtain ⟨found, hfound, -⟩ : ∃ found, find? (compute g c start) q (pr.dotted pr.symbols.length) = some found ∧ _ :=
    has_compute hs hc h0 (hr.mem_transitions hc hpr h0) hreach
  refine ⟨found, hfound, fun t ht => ?_⟩
  obtain ⟨q', hreach', hafter⟩ := isLookahead_iff.mp ht
  obtain ⟨htrans, hfollows⟩ := follows_of_comesAfter hr hs hc hafter (hs.name hpr)
  obtain ⟨i, hmem, hnext, -⟩ := mem_transitions.mp htrans
  obtain ⟨pr', -, d, -, rfl⟩ := hc.belongs hmem
  have h0' := hc.dotted_zero_mem hmem hnext (hc.numbered.mem hpr)
  obtain ⟨found', hfound', hmem'⟩ : ∃ found, find? (compute g c start) q (pr.dotted pr.symbols.length) = some found ∧
      ∀ t, Follows g c start q' pr.name t → t ∈ found := has_compute hs hc h0' htrans hreach'
  obtain rfl := Option.some.inj (hfound'.symm.trans hfound)
  exact hmem' t hfollows

variable {found : List S} (hend : g.endless = [])
  (hfound : find? (compute g c start) q (pr.dotted pr.symbols.length) = some found)

include hend hfound

theorem exists_gathered (hpr : pr ∈ g.productions) (ht : t ∈ found) :
    ∃ d, ∃ u ∈ transitions g c, LooksBack c d u q (pr.dotted pr.symbols.length) ∧ Gathered g c u t := by
  obtain ⟨u, hu, ⟨i, hi, hsame⟩, hfollow⟩ := followsBack_of_mem hfound ht
  obtain ⟨hmem, d, hback⟩ := (mem_lookbacksOf_iff hc).mp hi
  have hbelongs : Belongs g (pr.dotted pr.symbols.length) := ⟨pr, hr.mem_all.mpr (.inr hpr), _, Nat.le_refl _, rfl⟩
  obtain rfl := (hc.belongs hmem).eq_of_same hc.numbered hbelongs hsame
  exact ⟨d, u, hu, hback, gathered_of_mem_followSets hs hc hr hend hu hfollow⟩

omit hend in
theorem mem_of_gathered (hdistinct : ∀ u v, ReadTogether g c u v → u = v)
    (hi : pr.dotted pr.symbols.length ∈ c.itemsOf q) {d : Nat} (hu : u ∈ transitions g c)
    (hback : LooksBack c d u q (pr.dotted pr.symbols.length)) (ht : Gathered g c u t) : t ∈ found := by
  have hincluded : ∃ v ∈ transitions g c,
      ReflTransGen (fun a b => b ∈ (related g c).includes.getD a []) u v ∧
      ∃ w, ReflTransGen (fun a b => b ∈ reads c g.nullable a) v w ∧ t ∈ directReads g c start w := by
    clear hback
    induction ht with
    | comes hu hafter =>
      obtain ⟨i, -, -, hnon⟩ := mem_transitions.mp hu
      exact (follows_of_comesAfter hr hs hc hafter hnon).2.included hs hu
    | @passed d u v t hu' hv hpass _ ih =>
      obtain ⟨w, hw, hincl, hreads⟩ := ih hu'
      exact ⟨w, hw, .head (mem_includes.mpr ⟨hu', (mem_includedIn_iff hc hs).mpr ⟨hv, d, hpass⟩⟩) hincl, hreads⟩
    | shared hu' _ htogether _ ih =>
      obtain rfl := hdistinct _ _ htogether
      exact ih hu'
  obtain ⟨v, hv, hincl, w, hreads, hdirect⟩ := hincluded
  have hlook : (q, pr.dotted pr.symbols.length) ∈ lookbacksOf g c g.nullable (transitions g c).contains u :=
    (mem_lookbacksOf_iff hc).mpr ⟨hi, d, hback⟩
  obtain ⟨found', hfound', hmem⟩ := has_compute_of_lookback start hu hlook
  obtain rfl := Option.some.inj (hfound'.symm.trans hfound)
  exact hmem t (mem_followSets_of_included hs hu hv hincl hreads hdirect)

end Exact

end LispKit.Lookahead
