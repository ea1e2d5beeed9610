import LispKit.Proofs.Automaton.Bound
import LispKit.Proofs.Automaton.Table

/-! The rows of a table, whatever precedences and conflicts there are: every action is one that an item of the state
justifies. If no precedence is declared and no conflict is reported, every action that an item asks for is there. -/

namespace LispKit

open Vocabulary Collection List

variable {S : Type} [DecidableEq S] [Vocabulary S] {g : Grammar S} {p : Production S} {c : Collection S} {start : S}

namespace Grammar.Ready

variable {q : Nat} (hr : g.Ready p start)

include hr

lemma explored : Explored g p (build g p) :=
  explored_build hr.numbered hr.augmented

variable (hc : Explored g p c) {i : Item S}

include hc

lemma eq_zero_of_mem (hi : p.dotted 0 ∈ c.itemsOf q) : q = 0 := by
  rcases hc.origin hi with ⟨hq, -⟩ | ⟨j, hj, hnext⟩
  · exact hq
  · obtain ⟨pr, hpr, d, -, rfl⟩ := hc.belongs hj
    exact absurd hr.first.1 (hr.unmarked hpr (mem_of_getElem? hnext)).1

lemma mem_transitions {pr : Production S} (hpr : pr ∈ g.productions) (hi : pr.dotted 0 ∈ c.itemsOf q) :
    (q, pr.name) ∈ Lookahead.transitions g c := by
  rcases hc.origin hi with ⟨-, heq⟩ | ⟨j, hj, hnext⟩
  · exact absurd ((congrArg Item.name heq).trans hr.first.1) (hr.name hpr).1
  · exact Lookahead.mem_transitions.mpr ⟨j, hj, hnext, (hr.name hpr).2⟩

lemma unmarked_of_goto? {r : Nat} {s : S} (hgoto : c.goto? q s = some r) : s ≠ startMark ∧ s ≠ endMark := by
  obtain ⟨i, hi, hs⟩ := hc.exists_expected hgoto
  obtain ⟨pr, hpr, d, -, rfl⟩ := hc.belongs hi
  exact hr.unmarked hpr (mem_of_getElem? hs)

lemma complete (hi : i ∈ c.itemsOf q) (hnext : i.next? = none) (hname : i.name ≠ startMark) :
    ∃ pr ∈ g.productions, i = pr.dotted pr.symbols.length := by
  obtain ⟨pr, hpr, d, hd, rfl⟩ := hc.belongs hi
  have hlen : d = pr.symbols.length := Nat.le_antisymm hd (List.getElem?_eq_none_iff.mp hnext)
  refine ⟨pr, (hr.mem_all.mp hpr).resolve_left ?_, by rw [hlen]⟩
  rintro rfl
  exact hname hr.first.1

lemma eq_final (hi : i ∈ c.itemsOf q) (hnext : i.next? = none) (hname : i.name = startMark) :
    i = p.dotted 1 := by
  obtain ⟨pr, hpr, d, hd, rfl⟩ := hc.belongs hi
  obtain rfl : pr = p := (hr.mem_all.mp hpr).resolve_right fun hmem => (hr.name hmem).1 hname
  have hlen : d = pr.symbols.length := Nat.le_antisymm hd (List.getElem?_eq_none_iff.mp hnext)
  rw [hlen, hr.first.2]
  rfl

lemma final_first (hi : p.dotted 1 ∈ c.itemsOf q) : ∃ rest, c.itemsOf q = p.dotted 1 :: rest := by
  have hclosure : ∀ (i : Item S) (k : List (Item S)), ∃ rest, Collection.closure g (i :: k) = i :: rest := by
    intro i k
    have hfuel : (i :: k).length + g.size = k.length + g.size + 1 := by
      rw [length_cons]
      omega
    rw [Collection.closure, hfuel, closureFrom_cons]
    exact ⟨_, rfl⟩
  have hpos : 0 < q := by
    rcases Nat.eq_zero_or_pos q with rfl | hq
    · exact absurd hi hc.dotted_succ_not_mem
    · exact hq
  obtain ⟨st, hst, -, hform⟩ := hc.state_of_mem hi
  obtain ⟨q', -, s, hgoto⟩ := hc.reached q hpos (List.getElem?_eq_some_iff.mp hst).1
  obtain ⟨h0, hs⟩ := hc.retreat hgoto hi
  obtain rfl := hr.eq_zero_of_mem hc h0
  obtain ⟨st₀, hst₀, hkernel₀⟩ := hc.first
  obtain ⟨rest, hrest⟩ := hclosure (Item.start p) []
  have hitems : c.itemsOf 0 = p.dotted 0 :: rest := by
    rw [itemsOf_eq hst₀, (hc.formed st₀ (mem_of_getElem? hst₀)).1, hkernel₀, hrest]
    rfl
  obtain ⟨st', hst', hkernel, -⟩ := hc.leads hgoto
  rw [hst] at hst'
  obtain rfl := Option.some.inj hst'
  have hmoved : moved (c.itemsOf 0) s = p.dotted 1 :: moved rest s := by
    have hnext : decide ((p.dotted 0).next? = some s) = true := decide_eq_true hs
    rw [hitems, moved, filter_cons, if_pos hnext, map_cons]
    rfl
  rw [itemsOf_eq hst, hform.1, hkernel, hmoved]
  exact hclosure _ _

end Grammar.Ready

structure Row (g : Grammar S) (p : Production S) (c : Collection S) (q : Nat) (row : ActionRow S) : Prop where
  of_shift : ∀ {s r}, row.get? s = some (some (.shift r)) → c.goto? q s = some r ∧ g.isTerminal s = true
  of_reduce : ∀ {s n}, row.get? s = some (some (.reduce n)) →
    ∃ pr ∈ g.productions, pr.number = n ∧ pr.dotted pr.symbols.length ∈ c.itemsOf q
  of_accept : ∀ {s}, row.get? s = some (some .accept) → s = endMark ∧ p.dotted 1 ∈ c.itemsOf q
  expected : ∀ {s a}, row.get? s = some (some a) → Lookahead.Expected c s

def Heeds (R : Action → Action → Prop) (g : Grammar S) (c : Collection S) (lookaheads : List (Lookahead.Entry S)) (q : Nat)
    (row : ActionRow S) : Prop :=
  ∀ {i s a}, i ∈ c.itemsOf q → Draft.Asks g c lookaheads q i s a → ∃ b, row.get? s = some (some b) ∧ R b a

section Rows

variable {q : Nat} {d : Draft S} {lookaheads : List (Lookahead.Entry S)}

lemma asks_of_addItems {s : S} {a : Action} (hd : Draft.addItems g c lookaheads q (c.itemsOf q) {} = (d, none))
    (ha : d.actions.get? s = some (some a)) : ∃ i ∈ c.itemsOf q, Draft.Asks g c lookaheads q i s a := by
  rcases (Draft.addItems_iff.mp hd).2.proposed Draft.owned_empty ha with ha | ⟨pr, hpr, rfl, rfl⟩
  · cases ha
  · obtain ⟨i, hi, hpr⟩ := mem_flatMap.mp hpr
    exact ⟨i, hi, (Draft.mem_asked.mp hpr).2⟩

lemma row_of_addItems (hr : g.Ready p start) (hc : Explored g p c)
    (hd : Draft.addItems g c (Lookahead.compute g c start) q (c.itemsOf q) {} = (d, none)) : Row g p c q d.actions := by
  refine ⟨?_, ?_, ?_, ?_⟩
  · intro s r hs
    obtain ⟨i, -, ha⟩ := asks_of_addItems hd hs
    cases ha with
    | shift _ hterm hgoto => exact ⟨hgoto, hterm⟩
  · intro s n hs
    obtain ⟨i, hi, ha⟩ := asks_of_addItems hd hs
    cases ha with
    | reduce hnext hname _ _ =>
      obtain ⟨pr, hpr, rfl⟩ := hr.complete hc hi hnext hname
      exact ⟨pr, hpr, rfl, hi⟩
  · intro s hs
    obtain ⟨i, hi, ha⟩ := asks_of_addItems hd hs
    cases ha with
    | accept hnext hname =>
      rw [hr.eq_final hc hi hnext hname] at hi
      exact ⟨rfl, hi⟩
  · intro s a hs
    obtain ⟨i, hi, ha⟩ := asks_of_addItems hd hs
    cases ha with
    | shift hnext _ _ => exact .inr ⟨q, i, hi, hnext⟩
    | reduce _ _ hfind hmem => exact Lookahead.expected_compute hfind hmem
    | accept _ _ => exact .inl rfl

section Heeded

variable (hr : g.Ready p start) (hc : Explored g p c) (hd : Draft.addItems g c lookaheads q (c.itemsOf q) {} = (d, none))
  (hfinal : p.dotted 1 ∈ c.itemsOf q → ∃ rest, c.itemsOf q = p.dotted 1 :: rest ∧ p.dotted 1 ∉ rest)

include hr hc hd hfinal

lemma exists_placed_after : ∃ d₁ prs, Draft.Placed g q prs d₁ d ∧ d₁.Owned ∧ (∀ s, d₁.actions.get? s ≠ some none) ∧
    (d₁ = {} ∨ d₁ = ({} : Draft S).enter endMark (p.dotted 1) .accept) ∧ (∀ pr ∈ prs, pr.action ≠ .accept) ∧ ∀ {i s a}, i ∈ c.itemsOf q → Draft.Asks g c lookaheads q i s a →
      (∃ pr ∈ prs, pr.symbol = s ∧ pr.action = a) ∨ d₁.actions.get? s = some (some a) := by
  have hplaced := (Draft.addItems_iff.mp hd).2
  have hothers : ∀ {items : List (Item S)}, (∀ i ∈ items, i ∈ c.itemsOf q) → p.dotted 1 ∉ items →
      ∀ pr ∈ items.flatMap (Draft.asked g c lookaheads q), pr.action ≠ .accept := by
    intro items hsub hnot pr hpr hact
    obtain ⟨i, hi, hpr⟩ := mem_flatMap.mp hpr
    have hasks := (Draft.mem_asked.mp hpr).2
    rw [hact] at hasks
    generalize pr.symbol = s at hasks
    cases hasks with
    | accept hnext hname => exact hnot (hr.eq_final hc (hsub i hi) hnext hname ▸ hi)
  have hmem : ∀ {items : List (Item S)} {i s a}, i ∈ items → Draft.Asks g c lookaheads q i s a →
      ∃ pr ∈ items.flatMap (Draft.asked g c lookaheads q), pr.symbol = s ∧ pr.action = a :=
    fun {_ i s a} hi ha => ⟨⟨s, i, a⟩, mem_flatMap.mpr ⟨i, hi, Draft.mem_asked.mpr ⟨rfl, ha⟩⟩, rfl, rfl⟩
  by_cases hin : p.dotted 1 ∈ c.itemsOf q
  · obtain ⟨rest, hitems, hnot⟩ := hfinal hin
    have hnext : (p.dotted 1).next? = none := by
      rw [Item.next?, Production.dotted, hr.first.2]
      rfl
    have hname : (p.dotted 1).name = startMark := hr.first.1
    have hasked : Draft.asked g c lookaheads q (p.dotted 1) = [⟨endMark, p.dotted 1, .accept⟩] := by
      simp [Draft.asked, hnext, hname]
    rw [hitems, flatMap_cons, hasked, singleton_append] at hplaced
    cases hplaced with
    | cons hpr hplaced =>
      have hsets := (hpr.effect Draft.owned_empty).sets
      cases hpr with
      | accept =>
        refine ⟨_, _, hplaced, Draft.owned_empty.of_sets hsets, fun s hs => ?_,
          .inr rfl, hothers (fun i hi => hitems ▸ mem_cons_of_mem _ hi) hnot, fun {i s a} hi ha => ?_⟩
        · obtain ⟨e, he, -, hx⟩ := Registry.mem_of_get? hs
          obtain rfl := mem_singleton.mp he
          cases hx
        · rw [hitems] at hi
          rcases mem_cons.mp hi with rfl | hi
          · cases ha with
            | accept _ _ => exact .inr (Registry.get?_insert_self _ _ _)
            | shift hsome _ _ => cases hnext.symm.trans hsome
            | reduce _ hne _ _ => exact absurd hname hne
          · exact .inl (hmem hi ha)
  · exact ⟨_, _, hplaced, Draft.owned_empty, fun s hs => (by cases hs), .inl rfl, hothers (fun i hi => hi) hin,
      fun hi ha => .inl (hmem hi ha)⟩

variable (hg : g.Flat)

include hg

lemma heeds_beats : (∀ s, d.actions.get? s ≠ some none) ∧ Heeds (Draft.Beats g) g c lookaheads q d.actions := by
  obtain ⟨d₁, prs, hplaced, ho, hnone, -, hopen, hall⟩ := exists_placed_after hr hc hd hfinal
  obtain ⟨hsome, hkept, hprs⟩ := hplaced.beats hg ho hnone hopen
  refine ⟨hsome, fun {i s a} hi ha => ?_⟩
  rcases hall hi ha with ⟨pr, hpr, rfl, rfl⟩ | hs
  · exact hprs pr hpr
  · exact hkept hs

lemma heeds_same (hsilent : d.Silent) : Heeds Draft.AreSame g c lookaheads q d.actions := by
  obtain ⟨d₁, prs, hplaced, ho, hnone, -, hopen, hall⟩ := exists_placed_after hr hc hd hfinal
  obtain ⟨hkept, hprs⟩ := hplaced.stands hg ho hnone hopen hsilent
  intro i s a hi ha
  rcases hall hi ha with ⟨pr, hpr, rfl, rfl⟩ | hs
  · exact hprs pr hpr
  · exact hkept hs

end Heeded

section Asked

variable (hr : g.Ready p start) (hc : Explored g p c)

include hc

lemma exists_asks_shift {i : Item S} {s : S} (hi : i ∈ c.itemsOf q) (hs : i.next? = some s) (hterm : g.isTerminal s = true) :
    ∃ r, Draft.Asks g c lookaheads q i s (.shift r) := by
  obtain ⟨pr, -, d, -, rfl⟩ := hc.belongs hi
  obtain ⟨r, hgoto⟩ := hc.exists_goto? hi hs
  exact ⟨r, .shift hs hterm hgoto⟩

include hr

lemma asks_reduce (hsorted : Lookahead.Sorted g) {q' : Nat} {pr : Production S} {s : S} (hpr : pr ∈ g.productions)
    (h0 : pr.dotted 0 ∈ c.itemsOf q') (hreach : c.reach? q' pr.symbols = some q)
    (hfollow : Lookahead.Follows g c start q' pr.name s) :
    Draft.Asks g c (Lookahead.compute g c start) q (pr.dotted pr.symbols.length) s (.reduce pr.number) := by
  obtain ⟨found, hfound, hmem⟩ := Lookahead.has_compute hsorted hc h0 (hr.mem_transitions hc hpr h0) hreach
  exact .reduce (List.getElem?_eq_none_iff.mpr (Nat.le_refl _)) (hr.name hpr).1 hfound (hmem s hfollow)

omit hc

lemma asks_accept : Draft.Asks g c lookaheads q (p.dotted 1) endMark .accept := by
  refine .accept ?_ hr.first.1
  rw [Item.next?, Production.dotted, hr.first.2]
  rfl

end Asked

lemma addItems_of_buildRows {k : Nat} {sts : List (ItemSet S)} {t : Table S}
    (h : (Table.buildRows g c lookaheads k sts t).stopped = none) {j : Nat} {st : ItemSet S} (hst : sts[j]? = some st) :
    ∃ d, Draft.addItems g c lookaheads (k + j) st.items {} = (d, none) := by
  induction sts generalizing k t j with
  | nil => cases hst
  | cons st' sts ih =>
    rw [Table.buildRows] at h
    split at h
    · cases h
    · rename_i d hd
      cases j with
      | zero =>
        obtain rfl := Option.some.inj hst
        exact ⟨d, hd⟩
      | succ j =>
        have := ih h hst
        rwa [Nat.add_assoc, Nat.add_comm 1 j] at this

theorem rows_of_build (hstart : p.symbols = [start]) (h : (Table.build g p).error? = none) :
    (Table.build g p).rows.length = (build g p).states.length ∧ ∀ {q st}, (build g p).states[q]? = some st → ∃ d,
        Draft.addItems g (build g p) (Lookahead.compute g (build g p) start) q ((build g p).itemsOf q) {} = (d, none) ∧
        (Table.build g p).rows[q]? = some ⟨st.items, d, Table.gotosOf g (build g p) q st.items⟩ := by
  have hbuild : Table.build g p =
      Table.buildRows g (build g p) (Lookahead.compute g (build g p) start) 0 (build g p).states {} := by
    simp only [Table.build, hstart]
  have hstopped : (Table.buildRows g (build g p) (Lookahead.compute g (build g p) start) 0 (build g p).states {}).stopped =
      none := by
    rw [← hbuild]
    exact Option.map_eq_none_iff.mp h
  obtain ⟨rows, hrows, hlen, hget⟩ := buildRows_eq 0 (build g p).states {} fun j st hst =>
    addItems_of_buildRows hstopped hst
  rw [hbuild, hrows]
  refine ⟨hlen, fun {q st} hst => ?_⟩
  obtain ⟨d, hd, hrow⟩ := hget q st hst
  rw [Nat.zero_add] at hd hrow
  exact ⟨d, by rw [itemsOf_eq hst]; exact hd, hrow⟩

end Rows

structure Plain (g : Grammar S) (p : Production S) (c : Collection S) (start : S) : Prop extends g.Ready p start where
  explored : Explored g p c
  sorted : Lookahead.Sorted g
  flat : g.Flat
  final : ∀ {q}, p.dotted 1 ∈ c.itemsOf q → c.itemsOf q = [p.dotted 1]

namespace Plain

variable (h : Plain g p c start)

include h

lemma final_first {q : Nat} (hi : p.dotted 1 ∈ c.itemsOf q) :
    ∃ rest, c.itemsOf q = p.dotted 1 :: rest ∧ p.dotted 1 ∉ rest :=
  ⟨[], h.final hi, not_mem_nil⟩

lemma exists_row (q : Nat) : ∃ d, Draft.addItems g c (Lookahead.compute g c start) q (c.itemsOf q) {} = (d, none) := by
  have hfound : ∀ i ∈ c.itemsOf q, Draft.Found (Lookahead.compute g c start) q i := by
    intro i hi hnext hname
    obtain ⟨pr, hpr, rfl⟩ := h.complete h.explored hi hnext hname
    obtain ⟨q', hreach, h0⟩ := h.explored.begin_of_mem hi
    rw [take_length] at hreach
    obtain ⟨found, hfound, -⟩ :=
      Lookahead.has_compute h.sorted h.explored h0 (h.mem_transitions h.explored hpr h0) hreach
    exact ⟨found, hfound⟩
  suffices hplaced : ∃ d, Draft.Placed g q ((c.itemsOf q).flatMap (Draft.asked g c (Lookahead.compute g c start) q)) {} d from
    hplaced.imp fun d hd => Draft.addItems_iff.mpr ⟨hfound, hd⟩
  by_cases hin : p.dotted 1 ∈ c.itemsOf q
  · have hnext : (p.dotted 1).next? = none := by
      rw [Item.next?, Production.dotted, h.first.2]
      rfl
    have hname : (p.dotted 1).name = startMark := h.first.1
    rw [h.final hin]
    simp only [flatMap_singleton, Draft.asked, hnext, hname, if_true]
    exact ⟨_, .cons (.accept _) (.nil _)⟩
  · refine Draft.exists_placed Draft.owned_empty (fun pr hpr => ?_) fun t ht => by cases ht
    obtain ⟨i, hi, hpr⟩ := mem_flatMap.mp hpr
    obtain ⟨rfl, hasks⟩ := Draft.mem_asked.mp hpr
    generalize pr.symbol = s at hasks
    generalize pr.action = a at hasks
    cases hasks with
    | shift _ _ _ => exact .inl ⟨_, rfl⟩
    | reduce _ _ _ _ => exact .inr rfl
    | accept hnext hname => exact absurd (h.eq_final h.explored hi hnext hname ▸ hi) hin

end Plain

lemma Plain.finished (h : Plain g p (build g p) start) : (Table.build g p).error? = none := by
  obtain ⟨rows, hrows, -⟩ := buildRows_eq 0 (build g p).states {} fun q st hst => by
    rw [Nat.zero_add, ← itemsOf_eq hst]
    exact h.exists_row q
  simp only [Table.build, h.first.2, hrows]
  rfl

end LispKit
