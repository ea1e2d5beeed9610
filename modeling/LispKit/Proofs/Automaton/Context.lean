import LispKit.Proofs.Automaton.Row
import LispKit.Proofs.Grammar.Useful
import Mathlib.Data.List.Induction

/-! Contexts: a symbol follows a nonterminal step of the automaton exactly if it comes after the nonterminal in a rightmost
derivation from the start, and what is to the left of the nonterminal leads to the state of the step. -/

namespace LispKit.Lookahead

open Vocabulary Collection List Option

variable {S : Type} [DecidableEq S] [Vocabulary S] {g : Grammar S} {p pr : Production S} {c : Collection S}
  {start s t : S}

def Sentential (g : Grammar S) (w : List S) : Prop :=
  ∃ used, Rightmost g.all g.IsInput used [startMark, endMark] w

def ComesAfter (g : Grammar S) (c : Collection S) (q : Nat) (name t : S) : Prop :=
  ∃ u v, c.reach? 0 u = some q ∧ (∀ s ∈ t :: v, g.IsInput s) ∧ Sentential g (u ++ name :: t :: v)

def IsLookahead (g : Grammar S) (c : Collection S) (q : Nat) (pr : Production S) (t : S) : Prop :=
  ∃ u v, c.reach? 0 (u ++ pr.symbols) = some q ∧ (∀ s ∈ t :: v, g.IsInput s) ∧ Sentential g (u ++ pr.name :: t :: v)

lemma isLookahead_iff {q : Nat} :
    IsLookahead g c q pr t ↔ ∃ q', c.reach? q' pr.symbols = some q ∧ ComesAfter g c q' pr.name t := by
  constructor
  · rintro ⟨u, v, hreach, hinput, hsent⟩
    rw [reach?_append] at hreach
    obtain ⟨q', hu, hsym⟩ := bind_eq_some_iff.mp hreach
    exact ⟨q', hsym, u, v, hu, hinput, hsent⟩
  · rintro ⟨q', hsym, u, v, hu, hinput, hsent⟩
    refine ⟨u, v, ?_, hinput, hsent⟩
    rw [reach?_append, hu, bind_some, hsym]

omit [DecidableEq S] [Vocabulary S] in
lemma symbols_split {d : Nat} (hs : pr.symbols[d]? = some s) :
    pr.symbols = pr.symbols.take d ++ s :: pr.symbols.drop (d + 1) := by
  obtain ⟨hd, rfl⟩ := List.getElem?_eq_some_iff.mp hs
  rw [← drop_eq_getElem_cons hd, take_append_drop]

section Derived

lemma Sentential.expand {u v before rest x : List S} {pr : Production S} {s : S} (h : Sentential g (u ++ pr.name :: v))
    (hpr : pr ∈ g.all) (hv : ∀ s ∈ v, g.IsInput s) (hsym : pr.symbols = before ++ s :: rest)
    (hrest : ∃ used, Rightmost g.all g.IsInput used rest x) : Sentential g (u ++ before ++ s :: (x ++ v)) := by
  obtain ⟨used, h⟩ := h
  obtain ⟨used', hrest⟩ := hrest
  exact ⟨_, h.expand hpr hv hsym hrest⟩

variable (hr : g.Ready p start) (hend : g.endless = []) {read : List S} {i : Item S}

include hr hend

lemma Sentential.exists_expand {u v before rest : List S} {pr : Production S} {s : S}
    (h : Sentential g (u ++ pr.name :: v)) (hpr : pr ∈ g.all) (hv : ∀ s ∈ v, g.IsInput s)
    (hsym : pr.symbols = before ++ s :: rest) : ∃ w, (∀ s ∈ w, g.IsInput s) ∧ Sentential g (u ++ before ++ s :: w) := by
  have hknown : ∀ t ∈ rest, g.isTerminal t = true ∨ g.isNonterminal t = true := fun t ht =>
    hr.symbol hpr (hsym ▸ mem_append_right _ (mem_cons_of_mem _ ht))
  obtain ⟨used, x, hx, hrest⟩ := hr.exists_rightmost hend hknown
  exact ⟨x ++ v, forall_mem_append.mpr ⟨hx, hv⟩, h.expand hpr hv hsym ⟨used, hrest⟩⟩

def Valid (g : Grammar S) (read : List S) (i : Item S) : Prop :=
  ∃ u v, read = u ++ i.symbols.take i.dot ∧ (∀ s ∈ v, g.IsInput s) ∧ Sentential g (u ++ i.name :: v)

lemma Valid.begin (h : Valid g read i) (hi : Belongs g i) {s : S} (hs : i.next? = some s) :
    ∃ w, (∀ s ∈ w, g.IsInput s) ∧ Sentential g (read ++ s :: w) := by
  obtain ⟨pr, hpr, d, -, rfl⟩ := hi
  obtain ⟨u, v, rfl, hv, hsent⟩ := h
  exact hsent.exists_expand hr hend hpr hv (symbols_split hs)

variable (hc : Explored g p c) {q : Nat}

include hc

lemma valid_closure {kernel : List (Item S)} (hbelongs : ∀ i ∈ kernel, Belongs g i)
    (hvalid : ∀ i ∈ kernel, Valid g read i) (hi : i ∈ Collection.closure g kernel) : Valid g read i := by
  have hboth : Belongs g i ∧ Valid g read i := by
    refine of_mem_closureFrom (P := fun i => Belongs g i ∧ Valid g read i) ?_
      (fun i hi => ⟨hbelongs i hi, hvalid i hi⟩) hi
    rintro i s begun ⟨hi, hvalid⟩ hs hbegun
    obtain ⟨w, hw, hsent⟩ := hvalid.begin hr hend hi hs
    rw [← hc.numbered.name hbegun] at hsent
    exact ⟨belongs_start (hc.numbered.mem_all hbegun), read, w, (append_nil read).symm, hw, hsent⟩
  exact hboth.2

lemma valid_of_reach? (hread : c.reach? 0 read = some q) (hi : i ∈ c.itemsOf q) : Valid g read i := by
  -- along what is read; in every state the kernel is moved from the state before and the closure follows from it
  induction read using List.reverseRecOn generalizing q i with
  | nil =>
    obtain rfl := Option.some.inj hread
    obtain ⟨st, hst, hk⟩ := hc.first
    have hform := hc.formed st (mem_of_getElem? hst)
    rw [itemsOf_eq hst, hform.1] at hi
    refine valid_closure hr hend hc hform.2 ?_ hi
    rw [hk]
    intro j hj
    obtain rfl := mem_singleton.mp hj
    refine ⟨[], [endMark], rfl, forall_mem_singleton.mpr (.inr rfl), [], ?_⟩
    rw [Item.start, hr.first.1]
    exact .refl _
  | append_singleton read s ih =>
    rw [reach?_append] at hread
    obtain ⟨q', hq', hlast⟩ := bind_eq_some_iff.mp hread
    rw [reach?_cons] at hlast
    obtain ⟨_, hgoto, hsame⟩ := bind_eq_some_iff.mp hlast
    obtain rfl := Option.some.inj hsame
    obtain ⟨st, hst, hk, -⟩ := hc.leads hgoto
    have hform := hc.formed st (mem_of_getElem? hst)
    rw [itemsOf_eq hst, hform.1] at hi
    refine valid_closure hr hend hc hform.2 ?_ hi
    rw [hk]
    intro j hj
    obtain ⟨i, hi, rfl⟩ := mem_map.mp hj
    obtain ⟨hi, hs⟩ := mem_filter.mp hi
    obtain ⟨u, v, rfl, hv, hsent⟩ := ih hq' hi
    have hs : i.symbols[i.dot]? = some s := of_decide_eq_true hs
    refine ⟨u, v, ?_, hv, hsent⟩
    rw [Item.advance, take_add_one, hs, toList_some, append_assoc]

lemma Starts.sentential {t : S} (h : Starts g c q t) (hread : c.reach? 0 read = some q) :
    ∃ v, (∀ s ∈ t :: v, g.IsInput s) ∧ Sentential g (read ++ t :: v) := by
  induction h generalizing read with
  | here hi hs hterm =>
    obtain ⟨v, hv, hsent⟩ := (valid_of_reach? hr hend hc hread hi).begin hr hend (hc.belongs hi) hs
    exact ⟨v, forall_mem_cons.mpr ⟨.inl hterm, hv⟩, hsent⟩
  | @past q r i s t hi hs hnull hgoto _ ih =>
    obtain ⟨v, hv, used, hsent⟩ := ih (reach?_concat hread hgoto)
    obtain ⟨used', hvanish⟩ := Grammar.exists_rightmost_nil (forall_mem_singleton.mpr hnull) g.IsInput
    refine ⟨v, hv, used ++ used', hsent.trans ?_⟩
    have := (hvanish.append_right hv).append_left read
    rwa [nil_append, ← append_assoc] at this

theorem comesAfter_of_follows {s t : S} (h : Follows g c start q s t) (hq : q < c.states.length) :
    ComesAfter g c q s t := by
  induction h with
  | @starts q r s t hgoto hstarts =>
    obtain ⟨read, hread⟩ := hc.exists_reach? hq
    obtain ⟨v, hv, hsent⟩ := hstarts.sentential hr hend hc (reach?_concat hread hgoto)
    rw [append_assoc] at hsent
    exact ⟨read, v, hread, hv, hsent⟩
  | last =>
    have hfirst : Rightmost g.all g.IsInput [p] ([] ++ p.name :: [endMark]) ([] ++ p.symbols ++ [endMark]) :=
      .step (hr.mem_all.mpr (.inl rfl)) (forall_mem_singleton.mpr (.inr rfl)) (.refl _)
    rw [hr.first.1, hr.first.2] at hfirst
    exact ⟨[], [], rfl, forall_mem_singleton.mpr (.inr rfl), [p], hfirst⟩
  | @outer q r pr before after s t hi _ hsym hafter hreach _ ih =>
    obtain ⟨st, hst, -, -⟩ := hc.state_of_mem hi
    obtain ⟨u, v, hu, hv, hsent⟩ := ih (List.getElem?_eq_some_iff.mp hst).1
    obtain ⟨pr', hpr', d, -, heq⟩ := hc.belongs hi
    rw [show pr.name = pr'.name from congrArg Item.name heq] at hsent
    rw [show pr.symbols = pr'.symbols from congrArg Item.symbols heq] at hsym
    refine ⟨u ++ before, v, ?_, hv, hsent.expand hpr' hv hsym (Grammar.exists_rightmost_nil hafter _)⟩
    rw [reach?_append, hu, bind_some, hreach]

end Derived

section Placed

open ParseTree

variable (hr : g.Ready p start) {used : List (Production S)}

include hr

lemma rightmost_before_end {u w : List S} (hu : endMark ∉ u) (h : Rightmost g.all g.IsInput used (u ++ [endMark]) w) :
    ∃ x, w = x ++ [endMark] ∧ endMark ∉ x ∧ Rightmost g.all (g.isTerminal · = true) used u x := by
  generalize heq : u ++ [endMark] = y at h
  induction h generalizing u with
  | refl => exact ⟨u, heq.symm, hu, .refl _⟩
  | @step pr used y v w hpr hv _ ih =>
    rcases eq_nil_or_concat v with rfl | ⟨v, e, rfl⟩
    · exact absurd (append_inj_right' heq rfl) fun he => hr.inner hpr (List.cons.inj he).1.symm
    · have hsplit : u ++ [endMark] = (y ++ pr.name :: v) ++ [e] := by simpa using heq
      obtain ⟨rfl, he⟩ := append_inj' hsplit rfl
      obtain rfl := (List.cons.inj he).1
      have hinner : endMark ∉ y ++ pr.symbols ++ v := by
        simp only [mem_append, mem_cons, not_or] at hu ⊢
        exact ⟨⟨hu.1, fun hmem => (hr.unmarked hpr hmem).2 rfl⟩, hu.2.2⟩
      obtain ⟨x, rfl, hx, hrest⟩ := ih hinner (by simp)
      refine ⟨x, rfl, hx, .step hpr (fun s hmem => ?_) hrest⟩
      refine (hv s (by simp [hmem])).resolve_right ?_
      rintro rfl
      exact hu (by simp [hmem])

def Placed (g : Grammar S) (c : Collection S) (start : S) (w : List S) : Prop :=
  ∀ {u v : List S} {s : S}, w = u ++ s :: v → g.isNonterminal s = true →
    ∃ q, c.reach? 0 u = some q ∧ (q, s) ∈ transitions g c ∧
      ∀ ts : List (ParseTree S S), ts.map (root id) = v → (∀ t ∈ ts, t.Fits (rulesOf g) (g.isTerminal · = true) id) →
        Follows g c start q s (firstType id (words ts))

variable (hs : Sorted g) (hc : Explored g p c)

include hs hc

omit hr in
lemma Placed.step {u v : List S} {pr : Production S} (h : Placed g c start (u ++ pr.name :: v)) (hpr : pr ∈ g.productions)
    (hv : ∀ s ∈ v, g.isTerminal s = true) : Placed g c start (u ++ pr.symbols ++ v) := by
  intro x y s heq hnon
  have hterm : s ∉ v := by
    intro hmem
    rw [hs.apart (hv s hmem)] at hnon
    cases hnon
  -- inside the production the automaton goes on from where the production's name was expected
  have hinside : ∀ before rest, pr.symbols = before ++ s :: rest → ∃ q, c.reach? 0 (u ++ before) = some q ∧
      (q, s) ∈ transitions g c ∧ ∀ ts : List (ParseTree S S), ts.map (root id) = rest ++ v →
        (∀ t ∈ ts, t.Fits (rulesOf g) (g.isTerminal · = true) id) →
        Follows g c start q s (firstType id (words ts)) := by
    intro before rest hsym
    obtain ⟨q₀, hu, htrans, hfollows⟩ := h rfl (hs.name hpr)
    obtain ⟨i, hi, hnext, -⟩ := mem_transitions.mp htrans
    obtain ⟨pr', -, d, -, rfl⟩ := hc.belongs hi
    have h0 := hc.dotted_zero_mem hi hnext (hc.numbered.mem hpr)
    obtain ⟨q, hq, hmem⟩ := hc.dotted_add_mem h0 (by rw [drop_zero]; exact hsym)
    rw [Nat.zero_add] at hmem
    have hget : pr.symbols[before.length]? = some s := by simp [hsym]
    obtain ⟨r, hgoto⟩ := hc.exists_goto? hmem hget
    refine ⟨q, by rw [reach?_append, hu, bind_some, hq], mem_transitions.mpr ⟨_, hmem, hget, hnon⟩, ?_⟩
    intro ts hroots hfits
    obtain ⟨ts₁, ts₂, rfl, h₁, h₂⟩ := map_eq_append_iff.mp hroots
    rw [words_eq, flatMap_append, ← words_eq, ← words_eq]
    refine follows_child (u := .node s []) hs hc h0 htrans
      (hfollows ts₂ h₂ fun t ht => hfits t (mem_append_right _ ht))
      (fun t ht => hfits t (mem_append_left _ ht)) ?_ hmem ?_ hgoto
    · simp [hsym, hq]
    · simp [hsym, h₁, root]
  rcases append_split heq with ⟨rest, hleft, rfl⟩ | ⟨before, rfl, -⟩
  · rcases append_split hleft with ⟨rest', rfl, rfl⟩ | ⟨before, hsym, rfl⟩
    · -- to the left of the production nothing has changed
      obtain ⟨q, hx, htrans, hfollows⟩ := h (append_assoc x (s :: rest') _) hnon
      refine ⟨q, hx, htrans, fun ts hroots hfits => ?_⟩
      have hproduces : Produces (rulesOf g) (rest' ++ pr.name :: v) (rest' ++ pr.symbols ++ v) :=
        .rule rest' v (mem_map.mpr ⟨pr, hpr, rfl⟩)
      obtain ⟨us, hus, hwords, hfits'⟩ := hproduces.trees hroots hfits
      rw [← hwords]
      exact hfollows us hus hfits'
    · exact hinside before rest hsym
  · exact absurd (mem_append_right _ mem_cons_self) hterm

omit hs in
lemma placed_start : Placed g c start [start] := by
  intro u v s heq hnon
  obtain ⟨rfl, rfl, rfl⟩ := append_cons_eq_singleton heq.symm
  have hnext : (p.dotted 0).next? = some s := by
    rw [Item.next?, Production.dotted, hr.first.2]
    rfl
  refine ⟨0, rfl, mem_transitions.mpr ⟨_, hc.start_mem, hnext, hnon⟩, fun ts hroots _ => ?_⟩
  rw [map_eq_nil_iff.mp hroots]
  exact .last

lemma placed_of_rightmost {u w : List S} (h : Rightmost g.all (g.isTerminal · = true) used u w)
    (hu : u = [startMark] ∨ startMark ∉ u ∧ Placed g c start u) :
    w = [startMark] ∨ startMark ∉ w ∧ Placed g c start w := by
  induction h with
  | refl => exact hu
  | @step pr used u v w hpr hv _ ih =>
    apply ih
    right
    rcases hr.mem_all.mp hpr with rfl | hmem
    · rcases hu with hu | ⟨hnot, -⟩
      · obtain ⟨rfl, -, rfl⟩ := append_cons_eq_singleton hu
        rw [nil_append, append_nil]
        refine ⟨fun hin => (hr.unmarked hpr hin).1 rfl, ?_⟩
        rw [hr.first.2]
        exact placed_start hr hc
      · exact absurd (by simp [hr.first.1]) hnot
    · rcases hu with hu | ⟨hnot, hplaced⟩
      · exact absurd (append_cons_eq_singleton hu).2.1 (hr.name hmem).1
      · refine ⟨?_, hplaced.step hs hc hmem hv⟩
        simp only [mem_append, mem_cons, not_or] at hnot ⊢
        exact ⟨⟨hnot.1, fun hin => (hr.unmarked hpr hin).1 rfl⟩, hnot.2.2⟩

/-- What comes after a nonterminal in a derivation follows the step over it. -/
theorem follows_of_comesAfter {q : Nat} {s t : S} (h : ComesAfter g c q s t) (hnon : g.isNonterminal s = true) :
    (q, s) ∈ transitions g c ∧ Follows g c start q s t := by
  obtain ⟨u, v, hu, hinput, used, hderived⟩ := h
  have hends : (startMark : S) ≠ endMark := hr.first.1 ▸ hr.inner (hr.mem_all.mpr (.inl rfl))
  obtain ⟨x, hx, hnot, hbefore⟩ := rightmost_before_end hr (u := [startMark]) (by simpa using hends.symm) hderived
  obtain ⟨w, e, hw⟩ : ∃ w e, t :: v = w ++ [e] := by
    rcases eq_nil_or_concat (t :: v) with hnil | ⟨w, e, hw⟩
    · cases hnil
    · exact ⟨w, e, by rw [hw, concat_eq_append]⟩
  have hsplit : (u ++ s :: w) ++ [e] = x ++ [endMark] := by
    rw [← hx, hw]
    simp
  obtain ⟨rfl, he⟩ := append_inj' hsplit rfl
  obtain rfl := (List.cons.inj he).1
  obtain ⟨pr, hpr, rfl⟩ := hr.defined hnon
  rcases placed_of_rightmost hr hs hc hbefore (.inl rfl) with hstart | ⟨-, hplaced⟩
  · have hmem : pr.name ∈ [startMark] := hstart ▸ mem_append_right _ mem_cons_self
    exact absurd (mem_singleton.mp hmem) (hr.name hpr).1
  · obtain ⟨q', hq', htrans, hfollows⟩ := hplaced rfl hnon
    rw [hu] at hq'
    obtain rfl := Option.some.inj hq'
    refine ⟨htrans, ?_⟩
    have hfits : ∀ a ∈ w.map leaf, a.Fits (rulesOf g) (g.isTerminal · = true) id := by
      intro a ha
      obtain ⟨b, hb, rfl⟩ := mem_map.mp ha
      refine .leaf b ((hinput b (hw ▸ mem_append_left _ hb)).resolve_right ?_)
      rintro rfl
      exact hnot (mem_append_right _ (mem_cons_of_mem _ hb))
    have hfirst := hfollows (w.map leaf) (by simp [root, Function.comp_def]) hfits
    rw [words_map_leaf] at hfirst
    cases w with
    | nil =>
      obtain ⟨rfl, -⟩ := List.cons.inj hw
      exact hfirst
    | cons a w =>
      obtain ⟨rfl, -⟩ := List.cons.inj hw
      exact hfirst

end Placed

end LispKit.Lookahead
