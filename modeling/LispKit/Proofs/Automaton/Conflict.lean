import LispKit.Proofs.Automaton.Row

/-! Conflicts: each one that is reported is between two items of the state that ask for different actions before one and
the same symbol. -/

namespace LispKit

open Vocabulary Collection List

variable {S : Type} [DecidableEq S] [Vocabulary S] {g : Grammar S} {p : Production S} {c : Collection S} {start : S}

namespace Draft

variable {P : S → Action → Prop} {d d' : Draft S} {e : Option (Option Action)} {state : Nat} {pr : Proposal S}
  {prs : List (Proposal S)} {lookaheads : List (Lookahead.Entry S)}

structure Justified (P : S → Action → Prop) (d : Draft S) : Prop where
  only : ∀ {s a}, d.actions.get? s = some (some a) → P s a
  shiftReduce : ∀ e ∈ d.shiftReduce, (∃ target, P e.1 (.shift target)) ∧ ∃ n, P e.1 (.reduce n)
  reduceReduce : ∀ e ∈ d.reduceReduce, e.1 ≠ e.2 ∧ ∃ s, P s (.reduce e.1) ∧ P s (.reduce e.2)

def AskedBy (g : Grammar S) (c : Collection S) (lookaheads : List (Lookahead.Entry S)) (state : Nat)
    (items : List (Item S)) (s : S) (a : Action) : Prop :=
  ∃ item ∈ items, Asks g c lookaheads state item s a

omit [Vocabulary S] in
lemma justified_empty : Justified P ({} : Draft S) :=
  ⟨fun h => (by cases h), forall_mem_nil _, forall_mem_nil _⟩

lemma Effect.justified (h : Effect g d pr (d.actions.get? pr.symbol) d') (hd : Justified P d) (hpr : P pr.symbol pr.action)
    (hnew : ∀ n, pr.action = .reduce n → d.actions.get? pr.symbol ≠ some (some (.reduce n))) : Justified P d' := by
  refine ⟨fun {s a} ha => ?_, ?_, ?_⟩
  · by_cases hs : pr.symbol = s
    · subst hs
      rcases settle_cases (Option.some.inj (h.sets.1.symm.trans ha)) with rfl | hold
      · exact hpr
      · exact hd.only hold
    · exact hd.only ((h.sets.2.2 s hs).1 ▸ ha)
  · rcases h.shiftReduce with heq | ⟨hclash, r, heq⟩
    · exact heq ▸ hd.shiftReduce
    · rw [heq, forall_mem_append, forall_mem_singleton]
      refine ⟨hd.shiftReduce, ?_⟩
      generalize he : d.actions.get? pr.symbol = e at hclash
      generalize pr.action = a at hclash hpr
      cases hclash with
      | shift k n => exact ⟨⟨k, hd.only he⟩, n, hpr⟩
      | reduce n k => exact ⟨⟨k, hpr⟩, n, hd.only he⟩
  · rcases h.reduceReduce with ⟨heq, -⟩ | ⟨m, n, hold, hact, heq⟩
    · exact heq ▸ hd.reduceReduce
    · have hne : m ≠ n := by
        rintro rfl
        exact hnew m hact hold
      rw [hact] at hpr
      rcases heq with heq | heq
      · rw [heq, forall_mem_append, forall_mem_singleton]
        exact ⟨hd.reduceReduce, hne.symm, pr.symbol, hpr, hd.only hold⟩
      · rw [heq, forall_mem_append, forall_mem_singleton]
        exact ⟨hd.reduceReduce, hne, pr.symbol, hd.only hold, hpr⟩

def Apart (pr pr' : Proposal S) : Prop :=
  pr.symbol = pr'.symbol → ∀ n, pr.action = .reduce n → pr'.action ≠ .reduce n

lemma Placed.justified (h : Placed g state prs d d') (ho : d.Owned) (hd : Justified P d)
    (hprs : ∀ pr ∈ prs, P pr.symbol pr.action) (hapart : prs.Pairwise Apart)
    (hnew : ∀ pr ∈ prs, ∀ n, pr.action = .reduce n → d.actions.get? pr.symbol ≠ some (some (.reduce n))) :
    Justified P d' := by
  induction h with
  | nil d => exact hd
  | @cons pr prs d d₁ d' hpr _ ih =>
    have heffect := hpr.effect ho
    obtain ⟨hP, hPs⟩ := forall_mem_cons.mp hprs
    obtain ⟨hn, hns⟩ := forall_mem_cons.mp hnew
    obtain ⟨hfirst, hrest⟩ := pairwise_cons.mp hapart
    refine ih (ho.of_sets heffect.sets) (heffect.justified hd hP hn) hPs hrest fun pr' hmem n hact hget => ?_
    by_cases hs : pr.symbol = pr'.symbol
    · rw [← hs, heffect.sets.1] at hget
      rcases settle_cases (Option.some.inj hget) with heq | hold
      · exact hfirst pr' hmem hs n heq.symm hact
      · exact hns pr' hmem n hact (hs ▸ hold)
    · rw [(heffect.sets.2.2 _ hs).1] at hget
      exact hns pr' hmem n hact hget

lemma apart_asked {items : List (Item S)}
    (hfound : ∀ item symbols, Lookahead.find? lookaheads state item = some symbols → symbols.Nodup) (hnodup : items.Nodup)
    (hnumber : ∀ i ∈ items, ∀ j ∈ items, i.next? = none → j.next? = none → i.number = j.number → i = j) :
    (items.flatMap (asked g c lookaheads state)).Pairwise Apart := by
  have hreduce : ∀ {i : Item S} {pr : Proposal S} {n}, pr ∈ asked g c lookaheads state i → pr.action = .reduce n →
      i.next? = none ∧ i.number = n := by
    intro i pr n hpr hact
    have hasks := (mem_asked.mp hpr).2
    generalize pr.symbol = s at hasks
    generalize pr.action = a at hact hasks
    cases hasks with
    | reduce hnext _ _ _ => exact ⟨hnext, Action.reduce.inj hact⟩
    | shift _ _ _ => cases hact
    | accept _ _ => cases hact
  rw [pairwise_flatMap]
  constructor
  · intro i hi
    unfold asked
    split
    · split
      · exact pairwise_singleton _ _
      · cases hfind : Lookahead.find? lookaheads state i with
        | none => exact .nil
        | some symbols =>
          rw [Option.getD_some, pairwise_map]
          exact (hfound i symbols hfind).imp fun hne heq => absurd heq hne
    · rename_i s _
      split
      · cases c.goto? state s with
        | none => exact .nil
        | some target => exact pairwise_singleton _ _
      · exact .nil
  · refine hnodup.imp_of_mem fun {i j} hi hj hne pr hpr pr' hpr' _ n hact hact' => hne ?_
    obtain ⟨hnext, hn⟩ := hreduce hpr hact
    obtain ⟨hnext', hn'⟩ := hreduce hpr' hact'
    exact hnumber i hi j hj hnext hnext' (hn.trans hn'.symm)

end Draft

section Reported

variable {q : Nat} {s : S} (hr : g.Ready p start) (h : (Table.build g p).error? = none)

include hr h

lemma justified_of_row {row : TableRow S} (hrow : (Table.build g p).rows[q]? = some row) :
    row.draft.Justified (Draft.AskedBy g (build g p) (Lookahead.compute g (build g p) start) q ((build g p).itemsOf q)) := by
  have hc := hr.explored
  obtain ⟨hlen, hget⟩ := rows_of_build hr.first.2 h
  obtain ⟨d, hd, heq⟩ := hget (getElem?_eq_getElem (hlen ▸ (List.getElem?_eq_some_iff.mp hrow).1))
  rw [Option.some.inj (hrow.symm.trans heq)]
  have hnumber : ∀ i ∈ (build g p).itemsOf q, ∀ j ∈ (build g p).itemsOf q, i.next? = none → j.next? = none →
      i.number = j.number → i = j := by
    intro i hi j hj hi' hj' hnumber
    obtain ⟨pr, hpr, k, hk, rfl⟩ := hc.belongs hi
    obtain ⟨pr', hpr', k', hk', rfl⟩ := hc.belongs hj
    obtain rfl := hr.numbered.eq_of_number hpr hpr' hnumber
    have hlen : k = pr.symbols.length := Nat.le_antisymm hk (List.getElem?_eq_none_iff.mp hi')
    have hlen' : k' = pr.symbols.length := Nat.le_antisymm hk' (List.getElem?_eq_none_iff.mp hj')
    rw [hlen, hlen']
  refine (Draft.addItems_iff.mp hd).2.justified Draft.owned_empty Draft.justified_empty (fun pr hpr => ?_)
    (Draft.apart_asked (fun _ _ => Lookahead.nodup_compute) (nodup_itemsOf hr.numbered hr.augmented q) hnumber)
    fun pr _ _ _ hn => by cases hn
  obtain ⟨i, hi, hpr⟩ := mem_flatMap.mp hpr
  exact ⟨i, hi, (Draft.mem_asked.mp hpr).2⟩

lemma of_shiftReduceConflict {r : Resolution} (hmem : (q, s, r) ∈ (Table.build g p).shiftReduceConflicts) :
    (∃ i ∈ (build g p).itemsOf q, i.next? = some s ∧ g.isTerminal s = true) ∧
      ∃ pr ∈ g.productions, pr.dotted pr.symbols.length ∈ (build g p).itemsOf q ∧
        ∃ found, Lookahead.find? (Lookahead.compute g (build g p) start) q (pr.dotted pr.symbols.length) = some found ∧
          s ∈ found := by
  obtain ⟨⟨row, q'⟩, hrow, hreport⟩ := mem_flatMap.mp hmem
  obtain ⟨e, he, heq⟩ := mem_map.mp hreport
  obtain ⟨rfl, rfl⟩ := Prod.mk.inj heq
  obtain ⟨⟨target, i, hi, hshift⟩, n, j, hj, hreduce⟩ :=
    (justified_of_row hr h (mem_zipIdx_iff_getElem?.mp hrow)).shiftReduce _ he
  constructor
  · cases hshift with
    | shift hnext hterm _ => exact ⟨i, hi, hnext, hterm⟩
  · cases hreduce with
    | reduce hnext hname hfound hs =>
      obtain ⟨pr, hpr, rfl⟩ := hr.complete hr.explored hj hnext hname
      exact ⟨pr, hpr, hj, _, hfound, hs⟩

lemma of_reduceReduceConflict {chosen rejected : Nat}
    (hmem : (q, chosen, rejected) ∈ (Table.build g p).reduceReduceConflicts) :
    ∃ pr ∈ g.productions, ∃ pr' ∈ g.productions, pr.number = chosen ∧ pr'.number = rejected ∧ chosen ≠ rejected ∧
      pr.dotted pr.symbols.length ∈ (build g p).itemsOf q ∧ pr'.dotted pr'.symbols.length ∈ (build g p).itemsOf q ∧
      ∃ found found' s, Lookahead.find? (Lookahead.compute g (build g p) start) q (pr.dotted pr.symbols.length) = some found ∧
        Lookahead.find? (Lookahead.compute g (build g p) start) q (pr'.dotted pr'.symbols.length) = some found' ∧
        s ∈ found ∧ s ∈ found' := by
  obtain ⟨⟨row, q'⟩, hrow, hreport⟩ := mem_flatMap.mp hmem
  obtain ⟨e, he, heq⟩ := mem_map.mp hreport
  obtain ⟨rfl, rfl⟩ := Prod.mk.inj heq
  obtain ⟨hne, s, ⟨i, hi, hchosen⟩, j, hj, hrejected⟩ :=
    (justified_of_row hr h (mem_zipIdx_iff_getElem?.mp hrow)).reduceReduce _ he
  generalize hx : Action.reduce chosen = x at hchosen
  generalize hy : Action.reduce rejected = y at hrejected
  cases hchosen with
  | shift _ _ _ => cases hx
  | accept _ _ => cases hx
  | reduce hnext hname hfound hs =>
    cases hrejected with
    | shift _ _ _ => cases hy
    | accept _ _ => cases hy
    | reduce hnext' hname' hfound' hs' =>
      obtain ⟨pr, hpr, rfl⟩ := hr.complete hr.explored hi hnext hname
      obtain ⟨pr', hpr', rfl⟩ := hr.complete hr.explored hj hnext' hname'
      exact ⟨pr, hpr, pr', hpr', (Action.reduce.inj hx).symm, (Action.reduce.inj hy).symm, hne, hi, hj, _, _, s, hfound,
        hfound', hs, hs'⟩

end Reported

end LispKit
