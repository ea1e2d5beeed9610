import LispKit.Proofs.Automaton.Row
import LispKit.Proofs.Grammar.Useless
import LispKit.Proofs.Parser.Build

/-! How often a production is reduced by: the counts that are kept while a table is built, and the entries of the table. -/

namespace LispKit

open List Registry

namespace Draft

open Vocabulary Collection

variable {S : Type} [DecidableEq S] [Vocabulary S] {g : Grammar S} {d d' : Draft S} {state n : Nat}
  {prs : List (Proposal S)} {e : S → Option (Option Action)}

/-- The reductions that give way to an error when actions are placed where some stand already. -/
def abandoned (g : Grammar S) (e : S → Option (Option Action)) : List (Proposal S) → List Nat
  | [] => []
  | pr :: prs =>
    let x := some (settle g pr.symbol (e pr.symbol) pr.action)
    givenUp (e pr.symbol) x ++ abandoned g (Function.update e pr.symbol x) prs

theorem Placed.excess_eq (h : Placed g state prs d d') (hprs : ∀ pr ∈ prs, pr.action ≠ .accept) (ho : d.Owned)
    (ht : d.Tidy) (he : ∀ t, e t = d.actions.get? t ∨ d.actions.get? t = some (some .accept)) :
    d'.Tidy ∧ d'.proposals = d.proposals ++ prs ∧ ∀ n, d'.excess n = d.excess n + (abandoned g e prs).count n := by
  induction h generalizing e with
  | nil d => exact ⟨ht, (append_nil _).symm, fun n => (Int.add_zero _).symm⟩
  | @cons pr prs d d₁ d' hpr _ ih =>
    obtain ⟨hopen, hprs⟩ := forall_mem_cons.mp hprs
    have heffect := hpr.effect ho
    obtain ⟨ht₁, hp₁, hexcess₁⟩ := heffect.tally hopen ht
    -- nothing can be placed where the end of the input is accepted
    have hstands : e pr.symbol = d.actions.get? pr.symbol := (he _).resolve_right fun ha => hopen (heffect.standing ha)
    obtain ⟨ht', hp', hexcess'⟩ := ih hprs (ho.of_sets heffect.sets) ht₁
      (e := Function.update e pr.symbol (some (settle g pr.symbol (e pr.symbol) pr.action))) fun t => by
        by_cases hst : pr.symbol = t
        · subst hst
          rw [Function.update_self, heffect.sets.1, hstands]
          exact .inl rfl
        · rw [Function.update_of_ne (Ne.symm hst), (heffect.sets.2.2 t hst).1]
          exact he t
    refine ⟨ht', ?_, fun n => ?_⟩
    · rw [hp', hp₁]
      exact (append_assoc _ _ _).trans rfl
    · have hstep : d₁.excess n = d.excess n + (givenUp (d.actions.get? pr.symbol) (d₁.actions.get? pr.symbol)).count n :=
        hexcess₁ n
      rw [hexcess', hstep, heffect.sets.1, abandoned, count_append, hstands]
      push_cast
      omega

omit [Vocabulary S] in
/-- Only a production that does not associate gives way to an error. -/
lemma nonassoc_of_mem_abandoned (h : n ∈ abandoned g e prs) : (productionPrecedence g n).associativity = .nonassoc := by
  induction prs generalizing e with
  | nil => cases h
  | cons pr prs ih =>
    rcases mem_append.mp h with hn | hn
    · rcases he : e pr.symbol with _ | _ | _ | m | _ <;> rw [he] at hn
      iterate 3 cases hn
      · rcases ha : pr.action with k | m' | _ <;> rw [ha] at hn
        · rcases resolve_cases (g.precedenceOf pr.symbol) (productionPrecedence g m) with hc | hc | hc
          · simp only [settle, resolve_shift hc, givenUp] at hn
            cases hn
          · simp only [settle, resolve_reduce hc, givenUp] at hn
            cases hn
          · simp only [settle, resolve_refuse hc, givenUp] at hn
            exact mem_singleton.mp hn ▸ hc.2
        · cases hn
        · cases hn
      · cases hn
    · exact ih hn

end Draft

namespace Table

open Vocabulary

variable {S : Type} [DecidableEq S] [Vocabulary S] {g : Grammar S} {p : Production S} {start : S}

def entries (t : Table S) : List (Option Action) :=
  t.rows.flatMap fun r => r.draft.actions.values

/-- The reductions that stood in a row before they gave way to an error. -/
def abandoned (g : Grammar S) (t : Table S) : List Nat :=
  t.rows.flatMap fun r => Draft.abandoned g (fun _ => none) r.draft.proposals

def Tallied (g : Grammar S) (d : Draft S) : Prop :=
  d.Tidy ∧ ∀ n, d.excess n = (Draft.abandoned g (fun _ => none) d.proposals).count n

lemma tallied_of_build (hr : g.Ready p start) (h : (build g p).error? = none) :
    ∀ r ∈ (build g p).rows, Tallied g r.draft := by
  intro r hmem
  obtain ⟨hlen, hrows⟩ := rows_of_build hr.first.2 h
  obtain ⟨q, hq⟩ := mem_iff_getElem?.mp hmem
  obtain ⟨st, hst⟩ : ∃ st, (Collection.build g p).states[q]? = some st :=
    ⟨_, getElem?_eq_getElem (hlen ▸ (List.getElem?_eq_some_iff.mp hq).1)⟩
  obtain ⟨d, hd, hrow⟩ := hrows hst
  obtain rfl := Option.some.inj (hq.symm.trans hrow)
  obtain ⟨d₁, prs, hplaced, ho, -, hd₁, hopen, -⟩ := exists_placed_after hr hr.explored hd fun hi => by
    obtain ⟨rest, hrest⟩ := hr.final_first hr.explored hi
    have hnodup := Collection.nodup_itemsOf hr.numbered hr.augmented q
    rw [hrest] at hnodup
    exact ⟨rest, hrest, (nodup_cons.mp hnodup).1⟩
  have hbegin : d₁.Tidy ∧ d₁.proposals = [] ∧ (∀ n, d₁.excess n = 0) ∧
      ∀ t, none = d₁.actions.get? t ∨ d₁.actions.get? t = some (some .accept) := by
    rcases hd₁ with rfl | rfl
    · exact ⟨⟨.nil, .nil⟩, rfl, fun n => rfl, fun t => .inl rfl⟩
    · refine ⟨⟨nodup_singleton _, .nil⟩, rfl, fun n => rfl, fun t => ?_⟩
      by_cases ht : endMark = t
      · subst ht
        exact .inr (get?_insert_self _ _ _)
      · exact .inl (get?_insert_of_ne ({} : ActionRow S) _ (beq_eq_false_iff_ne.mpr ht)).symm
  obtain ⟨ht, hproposals, hexcess, he⟩ := hbegin
  obtain ⟨ht', hproposals', hexcess'⟩ := hplaced.excess_eq hopen ho ht he
  refine ⟨ht', fun n => ?_⟩
  dsimp only
  rw [hexcess', hexcess, Int.zero_add, hproposals', hproposals, nil_append]

lemma getD_foldl_entries {row : Registry Nat Int} (h : row.keys.Nodup) (r : Registry Nat Int) (n : Nat) :
    (row.entries.foldl (fun r e => r.update e.1 0 (· + e.2)) r).getD n 0 = r.getD n 0 + row.getD n 0 := by
  obtain ⟨es⟩ := row
  induction es generalizing r with
  | nil => exact (Int.add_zero _).symm
  | cons e es ih =>
    obtain ⟨hmem, hnodup⟩ := nodup_cons.mp h
    have hnone : e.1 = n → (⟨es⟩ : Registry Nat Int).getD n 0 = 0 := by
      rintro rfl
      rw [Registry.getD, get?_eq_none hmem]
      rfl
    have hcons : (⟨e :: es⟩ : Registry Nat Int).getD n 0 = if e.1 = n then e.2 else (⟨es⟩ : Registry Nat Int).getD n 0 := by
      by_cases he : e.1 = n <;> simp [Registry.getD, Registry.get?, he]
    rw [foldl_cons, ih _ hnodup, getD_update_add, hcons]
    split_ifs with he
    · rw [hnone he, Int.add_zero]
    · rw [Int.add_zero]

omit [Vocabulary S] in
lemma getD_reductionCounts (rows : List (TableRow S)) (h : ∀ r ∈ rows, Tallied g r.draft) (r : Registry Nat Int) (n : Nat) :
    ((rows.map fun r => r.draft.reductions).foldl (fun total row =>
      row.entries.foldl (fun total e => total.update e.1 0 (· + e.2)) total) r).getD n 0 = r.getD n 0 +
        (rows.flatMap fun r => r.draft.actions.values).count (some (.reduce n)) +
        (rows.flatMap fun r => Draft.abandoned g (fun _ => none) r.draft.proposals).count n := by
  induction rows generalizing r with
  | nil => simp
  | cons row rows ih =>
    obtain ⟨⟨ht, hexcess⟩, h⟩ := forall_mem_cons.mp h
    have hrow := hexcess n
    rw [Draft.excess] at hrow
    rw [map_cons, foldl_cons, ih h, getD_foldl_entries ht.2, flatMap_cons, flatMap_cons,
      count_append, count_append]
    push_cast
    omega

end Table

namespace Grammar

open Draft

variable {ts : List String} {ds : List Declaration} {g₀ g g' : Grammar String} {start : Option String} {t : Table String}

/-- A production is counted once for every entry that reduces by it, and once for every reduction that stood in a row
before it gave way to an error. -/
theorem reductions_counted (hds : Declaration.performAll (ofTerminals ts) ds = some g₀)
    (hstart : g₀.declareStart start = .ok g) (ht : g.buildTable = (.ok (), t, g')) (n : Nat) :
    g'.reductions.getD n 0 = t.entries.count (some (.reduce n)) + (t.abandoned g).count n ∧
    (g'.reductions.getD n 0 = 0 ↔ some (.reduce n) ∉ t.entries ∧ n ∉ t.abandoned g) ∧
    ((productionPrecedence g n).associativity ≠ .nonassoc →
      g'.reductions.getD n 0 = t.entries.count (some (.reduce n))) := by
  have hdeclared := Declaration.declared_performAll (declared_ofTerminals ts) hds
  obtain ⟨s, hs, rfl⟩ : ∃ s, g₀.isNonterminal s = true ∧ g = g₀.setStart s := by
    unfold declareStart at hstart
    split at hstart
    · cases hstart
    · split at hstart
      · rename_i s _ hs
        exact ⟨s, hs, (Except.ok.inj hstart).symm⟩
      · cases hstart
  obtain ⟨p, hp, hdefined, rfl, herror, first, follow, rfl⟩ := of_buildTable (g := g₀.setStart s) hdeclared.first ht
  obtain rfl := Option.some.inj hp
  have hcount : _ = _ + _ + _ :=
    Table.getD_reductionCounts _ (Table.tallied_of_build (hdeclared.ready hs hdefined) herror) g₀.reductions n
  generalize htable : Table.build (g₀.setStart s) ⟨0, Vocabulary.startMark, [s], .default, "", 0, ""⟩ = t at *
  have hrecorded : (({ g₀.setStart s with first := first, follow := follow } : Grammar String).recordReductions t).reductions.getD n 0
      = t.entries.count (some (.reduce n)) + (t.abandoned (g₀.setStart s)).count n := by
    rw [hdeclared.reductions] at hcount
    rw [recordReductions, Table.reductionCounts, Option.map_eq_none_iff.mp herror, Option.toList_none, map_nil,
      append_nil]
    exact hdeclared.reductions ▸ hcount.trans (by rw [show ({} : Registry Nat Int).getD n 0 = 0 from rfl, Int.zero_add]; rfl)
  refine ⟨hrecorded, ?_, fun hassoc => ?_⟩
  · rw [hrecorded, ← count_eq_zero, ← count_eq_zero]
    omega
  · have hkept : n ∉ t.abandoned (g₀.setStart s) := by
      intro hn
      obtain ⟨r, -, hn⟩ := mem_flatMap.mp hn
      exact hassoc (nonassoc_of_mem_abandoned hn)
    rw [hrecorded, count_eq_zero_of_not_mem hkept]
    exact Int.add_zero _

def unchained : Grammar String :=
  (Declaration.performAll (ofTerminals ["LT", "NUM"]) [.precedence "LT" "nonassoc" 1,
    .production "expr" ["expr", "LT", "expr"] ⟨"g", 0⟩ "", .production "expr" ["NUM"] ⟨"g", 1⟩ ""]).get (by decide +kernel)

lemma buildTable_eq (h : g.buildTable.1.isOk = true) : g.buildTable = (.ok (), g.buildTable.2) := by
  rcases hb : g.buildTable with ⟨_ | _, r⟩
  · rw [hb] at h
    cases h
  · rfl

theorem reductions_counted_unchained : ∃ t g', (unchained.setStart "expr").buildTable = (.ok (), t, g') ∧
    g'.reductions.getD 2 0 = t.entries.count (some (.reduce 2)) := by
  have hstart : unchained.declareStart (some "expr") = .ok (unchained.setStart "expr") := by
    rw [declareStart, Option.orElse_some]
    exact if_pos (by decide +kernel)
  have ht := buildTable_eq (g := unchained.setStart "expr") (by decide +kernel)
  exact ⟨_, _, ht, (reductions_counted (Option.some_get _).symm hstart ht 2).2.2 (by decide +kernel)⟩

/-- The first production is counted twice, and reduced by in one entry. -/
theorem counted_beyond_entries : (unchained.setStart "expr").buildTable.1.isOk = true ∧
    (unchained.setStart "expr").buildTable.2.2.reductions.getD 1 0 = 2 ∧
    (unchained.setStart "expr").buildTable.2.1.entries.count (some (.reduce 1)) = 1 := by
  refine ⟨?_, ?_, ?_⟩
  · decide +kernel
  · decide +kernel
  · decide +kernel

end Grammar

end LispKit
