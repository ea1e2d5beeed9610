import LispKit.Proofs.Automaton.Row
import Mathlib.Logic.Function.Iterate

/-! What precedence makes of a shift and a reduction that meet before a symbol: which one is entered, whatever the order
of the items, and how often an error entry is asked for in vain. -/

namespace LispKit

open Vocabulary Collection List

variable {S : Type} [DecidableEq S] [Vocabulary S] {g : Grammar S} {p : Production S} {c : Collection S} {start : S}

namespace Draft

variable {d : Draft S} {t : S} {e : Option (Option Action)} {item : Item S} {state target n : Nat}
  {lookaheads : List (Lookahead.Entry S)} {symbols : List S}

/-- An item that has nothing to say about a symbol: it does not expect it, and does not end before it. -/
def Indifferent (lookaheads : List (Lookahead.Entry S)) (state : Nat) (t : S) (item : Item S) : Prop :=
  item.next? = none → item.name ≠ startMark → ∀ symbols, Lookahead.find? lookaheads state item = some symbols → t ∉ symbols

def expecting (t : S) (items : List (Item S)) : List (Item S) :=
  items.filter fun i => i.next? = some t

def shiftEntry (g : Grammar S) (t : S) (target : Nat) (e : Option (Option Action)) : Option (Option Action) :=
  some (settle g t e (.shift target))

section Entries

omit [Vocabulary S] in
lemma shiftEntry_resolve (j : Nat) :
    (shiftEntry g t target)^[j] (some ((g.precedenceOf t).resolve (productionPrecedence g n) target n)) =
      some (if 0 < j ∧ (g.precedenceOf t).resolve (productionPrecedence g n) target n = none then some (.shift target)
        else (g.precedenceOf t).resolve (productionPrecedence g n) target n) := by
  rcases resolve_cases (g.precedenceOf t) (productionPrecedence g n) with hs | hr | hn
  · rw [resolve_shift hs, if_neg (by simp)]
    exact Function.iterate_fixed rfl j
  · rw [resolve_reduce hr, if_neg (by simp)]
    refine Function.iterate_fixed ?_ j
    rw [shiftEntry, settle, resolve_reduce hr]
  · rw [resolve_refuse hn]
    cases j with
    | zero => rfl
    | succ j =>
      rw [if_pos ⟨j.succ_pos, rfl⟩, Function.iterate_succ_apply]
      exact Function.iterate_fixed rfl j

omit [Vocabulary S] in
lemma shiftEntry_none (k : Nat) : (shiftEntry g t target)^[k + 1] none = some (some (.shift target)) :=
  Function.iterate_fixed rfl k

def entryOf (g : Grammar S) (c : Collection S) (lookaheads : List (Lookahead.Entry S)) (state : Nat) (t : S)
    (items : List (Item S)) (e : Option (Option Action)) : Option (Option Action) :=
  ((items.flatMap (asked g c lookaheads state)).filter fun pr => pr.symbol = t).foldl
    (fun e pr => some (settle g t e pr.action)) e

lemma entryOf_append (items more : List (Item S)) : entryOf g c lookaheads state t (items ++ more) e =
    entryOf g c lookaheads state t more (entryOf g c lookaheads state t items e) := by
  simp only [entryOf, flatMap_append, filter_append, foldl_append]

lemma entryOf_expecting {items : List (Item S)} (ht : t ≠ endMark) (hterm : g.isTerminal t = true)
    (hgoto : c.goto? state t = some target) (honly : ∀ i ∈ items, Indifferent lookaheads state t i) :
    entryOf g c lookaheads state t items e = (shiftEntry g t target)^[(expecting t items).length] e := by
  induction items generalizing e with
  | nil => rfl
  | cons i items ih =>
    obtain ⟨hi, hitems⟩ := forall_mem_cons.mp honly
    rw [← singleton_append, entryOf_append, ih hitems, singleton_append]
    unfold expecting
    by_cases hnext : i.next? = some t
    · rw [filter_cons_of_pos (by simpa using hnext), length_cons, Function.iterate_succ_apply]
      simp [entryOf, asked, hnext, hterm, hgoto, shiftEntry]
    · rw [filter_cons_of_neg (by simpa using hnext)]
      have hnone : ∀ pr ∈ asked g c lookaheads state i, pr.symbol ≠ t := by
        rintro pr hpr rfl
        have hasks := (mem_asked.mp hpr).2
        generalize pr.symbol = s at hasks hi ht hnext
        generalize pr.action = a at hasks
        cases hasks with
        | shift hs _ _ => exact hnext hs
        | reduce hs hname hfind hmem => exact hi hs hname _ hfind hmem
        | accept _ _ => exact ht rfl
      have hempty : (asked g c lookaheads state i).filter (fun pr => pr.symbol = t) = [] :=
        filter_eq_nil_iff.mpr fun pr hpr => by simpa using hnone pr hpr
      rw [entryOf, flatMap_singleton, hempty, foldl_nil]

lemma entryOf_complete (hcomplete : item.next? = none) (hname : item.name ≠ startMark)
    (hsymbols : Lookahead.find? lookaheads state item = some symbols) (hmem : t ∈ symbols) (hnodup : symbols.Nodup) :
    entryOf g c lookaheads state t [item] e = some (settle g t e (.reduce item.number)) := by
  have hone : symbols.filter (fun s => s = t) = [t] := by
    have hcount : symbols.filter (fun s => s = t) = List.replicate (symbols.count t) t := filter_beq t
    rw [hcount, count_eq_one_of_mem hnodup hmem, replicate_one]
  have hfilter : (asked g c lookaheads state item).filter (fun pr => pr.symbol = t) = [⟨t, item, .reduce item.number⟩] := by
    simp only [asked, hcomplete, hname, if_false, hsymbols, Option.getD_some, filter_map, Function.comp_def, hone,
      map_singleton]
  rw [entryOf, flatMap_singleton, hfilter, foldl_cons, foldl_nil]

end Entries

lemma entry_of_conflict {before after : List (Item S)} (ht : t ≠ endMark) (hterm : g.isTerminal t = true)
    (hgoto : c.goto? state t = some target) (hcomplete : item.next? = none) (hname : item.name ≠ startMark)
    (hsymbols : Lookahead.find? lookaheads state item = some symbols) (hmem : t ∈ symbols) (hnodup : symbols.Nodup)
    (honly : ∀ i ∈ before ++ after, Indifferent lookaheads state t i) (hexpected : expecting t (before ++ after) ≠ [])
    (hd : Placed g state ((before ++ item :: after).flatMap (asked g c lookaheads state)) {} d) :
    ∃ j, (j = 0 ↔ expecting t before = [] ∧ (expecting t after).length = 1 ∨ expecting t before ≠ [] ∧ expecting t after = []) ∧
      d.actions.get? t = (shiftEntry g t target)^[j]
        (some ((g.precedenceOf t).resolve (productionPrecedence g item.number) target item.number)) := by
  obtain ⟨hbefore, hafter⟩ := forall_mem_append.mp honly
  have hentry : d.actions.get? t = entryOf g c lookaheads state t (before ++ item :: after) none := hd.entry owned_empty t
  rw [entryOf_append, ← singleton_append, entryOf_append, entryOf_complete hcomplete hname hsymbols hmem hnodup,
    entryOf_expecting ht hterm hgoto hbefore, entryOf_expecting ht hterm hgoto hafter] at hentry
  rw [expecting, filter_append] at hexpected
  rcases hk : (expecting t before).length with _ | k
  · have hnil := length_eq_zero_iff.mp hk
    rw [hk] at hentry
    rcases hm : (expecting t after).length with _ | m
    · exact absurd (by rw [expecting] at hnil; rw [hnil, nil_append]; exact length_eq_zero_iff.mp hm) hexpected
    · rw [hm, Function.iterate_succ_apply] at hentry
      exact ⟨m, by simp [hnil, ← length_eq_zero_iff, hm], hentry⟩
  · rw [hk, shiftEntry_none] at hentry
    have hne : expecting t before ≠ [] := ne_nil_of_length_eq_add_one hk
    exact ⟨(expecting t after).length, by simp [hne, length_eq_zero_iff], hentry⟩

end Draft

open Draft in
/-- A shift and one reduction that meet before a symbol: the higher level wins, and of equal levels the associativity of
the production decides. -/
theorem conflict_resolved {q : Nat} {t : S} {row : TableRow S} {item : Item S} {before after : List (Item S)}
    {symbols : List S} (hg : g.Numbered) (hp : g.augmented = some p) (hstart : p.symbols = [start])
    (hbuilt : (Table.build g p).error? = none) (hrow : (Table.build g p).rows[q]? = some row)
    (hterm : g.isTerminal t = true) (ht : t ≠ endMark) (hitems : (build g p).itemsOf q = before ++ item :: after)
    (hexpected : expecting t (before ++ after) ≠ []) (hcomplete : item.next? = none) (hname : item.name ≠ startMark)
    (hsymbols : Lookahead.find? (Lookahead.compute g (build g p) start) q item = some symbols) (hmem : t ∈ symbols)
    (honly : ∀ i ∈ before ++ after, Indifferent (Lookahead.compute g (build g p) start) q t i) :
    ∃ target, (build g p).goto? q t = some target ∧
      ((productionPrecedence g item.number).level < (g.precedenceOf t).level ∨
        (g.precedenceOf t).level = (productionPrecedence g item.number).level ∧
          (productionPrecedence g item.number).associativity = .right →
        row.draft.actions.get? t = some (some (.shift target))) ∧
      ((g.precedenceOf t).level < (productionPrecedence g item.number).level ∨
        (g.precedenceOf t).level = (productionPrecedence g item.number).level ∧
          (productionPrecedence g item.number).associativity = .left →
        row.draft.actions.get? t = some (some (.reduce item.number))) ∧
      ((g.precedenceOf t).level = (productionPrecedence g item.number).level ∧
          (productionPrecedence g item.number).associativity = .nonassoc →
        row.draft.actions.get? t = some (if expecting t before = [] ∧ (expecting t after).length = 1 ∨
          expecting t before ≠ [] ∧ expecting t after = [] then none else some (.shift target))) := by
  have hc := explored_build hg hp
  obtain ⟨hlen, hget⟩ := rows_of_build hstart hbuilt
  obtain ⟨d, hd, heq⟩ := hget (getElem?_eq_getElem (hlen ▸ (List.getElem?_eq_some_iff.mp hrow).1))
  obtain rfl : row.draft = d := congrArg TableRow.draft (Option.some.inj (hrow.symm.trans heq))
  obtain ⟨target, hgoto⟩ : ∃ target, (build g p).goto? q t = some target := by
    obtain ⟨i, hi⟩ := exists_mem_of_ne_nil _ hexpected
    obtain ⟨hi, hnext⟩ := mem_filter.mp hi
    have hmem : i ∈ (build g p).itemsOf q := by
      rw [hitems]
      exact (mem_append.mp hi).elim (mem_append_left _) fun h => mem_append_right _ (mem_cons_of_mem _ h)
    obtain ⟨pr, -, e, -, rfl⟩ := hc.belongs hmem
    exact hc.exists_goto? hmem (of_decide_eq_true hnext)
  rw [hitems] at hd
  obtain ⟨j, hj, h⟩ := entry_of_conflict ht hterm hgoto hcomplete hname hsymbols hmem (Lookahead.nodup_compute hsymbols) honly
    hexpected (addItems_iff.mp hd).2
  have hentry := h.trans (shiftEntry_resolve j)
  refine ⟨target, hgoto, fun hs => ?_, fun hr => ?_, fun hn => ?_⟩
  · rw [resolve_shift hs] at hentry
    simpa using hentry
  · rw [resolve_reduce hr] at hentry
    simpa using hentry
  · rw [resolve_refuse hn] at hentry
    by_cases hzero : j = 0
    · rw [if_pos (hj.mp hzero)]
      simpa [hzero] using hentry
    · rw [if_neg (hj.not.mp hzero)]
      simpa [Nat.pos_of_ne_zero hzero] using hentry

def comparison : Grammar String :=
  let sign : Precedence := ⟨.nonassoc, 1⟩
  let g := { Grammar.ofTerminals ["LT", "NUM"] with precedence := ({} : Registry String Precedence).insert "LT" sign }
  let g := g.insert "expr" ["expr", "LT", "expr"] sign "" 1 ""
  let g := g.insert "expr" ["expr", "LT", "LT"] sign "" 2 ""
  (g.insert "expr" ["NUM"] .default "" 3 "").setStart "expr"

def comparisonStart : Production String :=
  ⟨0, startMark, ["expr"], .default, "", 0, ""⟩

lemma numbered_comparison : comparison.Numbered := by
  apply Grammar.numbered_of_entries
  all_goals decide +kernel

open Draft in
theorem conflict_resolved_comparison : ∃ row target, (Table.build comparison comparisonStart).rows[4]? = some row ∧
    (build comparison comparisonStart).goto? 4 "LT" = some target ∧
    comparison.precedenceOf "LT" = productionPrecedence comparison 1 ∧
    row.draft.actions.get? "LT" = some (some (.shift target)) := by
  obtain ⟨row, hrow⟩ : ∃ row, (Table.build comparison comparisonStart).rows[4]? = some row :=
    Option.isSome_iff_exists.mp (by decide +kernel)
  have hitems : (build comparison comparisonStart).itemsOf 4 = [] ++ ⟨1, "expr", ["expr", "LT", "expr"], 3⟩ ::
      [⟨1, "expr", ["expr", "LT", "expr"], 1⟩, ⟨2, "expr", ["expr", "LT", "LT"], 1⟩] := by decide +kernel
  have honly : ∀ i ∈ [] ++ [(⟨1, "expr", ["expr", "LT", "expr"], 1⟩ : Item String), ⟨2, "expr", ["expr", "LT", "LT"], 1⟩],
      Indifferent (Lookahead.compute comparison (build comparison comparisonStart) "expr") 4 "LT" i := by
    intro i hi hnext
    obtain rfl | rfl : i = _ ∨ i = _ := by simpa using hi
    · cases hnext
    · cases hnext
  have hsymbols : Lookahead.find? (Lookahead.compute comparison (build comparison comparisonStart) "expr") 4
      ⟨1, "expr", ["expr", "LT", "expr"], 3⟩ = some ["LT", "$end"] := by decide +kernel
  obtain ⟨target, hgoto, -, -, hnonassoc⟩ := conflict_resolved numbered_comparison rfl rfl (by decide +kernel) hrow
    (by decide +kernel) (by decide) hitems (by decide) rfl (by decide) hsymbols (by decide) honly
  exact ⟨row, target, hrow, hgoto, by decide +kernel, hnonassoc (by decide +kernel)⟩

/-- Two items go on with the sign and one ends before it, with levels that are equal and no associativity, and yet the
entry is no error. -/
theorem refusal_overruled :
    ((build comparison comparisonStart).itemsOf 4).map (fun i => (i.number, i.dot, i.next?)) =
      [(1, 3, none), (1, 1, some "LT"), (2, 1, some "LT")] ∧
    comparison.precedenceOf "LT" = ⟨.nonassoc, 1⟩ ∧ Draft.productionPrecedence comparison 1 = ⟨.nonassoc, 1⟩ ∧
    ((Table.build comparison comparisonStart).rows[4]?.bind fun row => row.draft.actions.get? "LT") =
      some (some (.shift 3)) := by
  decide +kernel

end LispKit
