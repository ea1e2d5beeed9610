import LispKit.Proofs.Automaton.Conflict
import LispKit.Proofs.Automaton.Gathered
import LispKit.Proofs.Parser.Sound

/-! The lookaheads of a parser that was built: none is missing, and where those that are too many come from. If there are
none of these, every conflict that is reported is one. -/

namespace LispKit

open Vocabulary Collection Relation List

namespace Lookahead

variable {S : Type} [DecidableEq S] [Vocabulary S] {g : Grammar S} {p : Production S} {c : Collection S} {start : S}

def EndsIn (g : Grammar S) (c : Collection S) (q : Nat) (pr : Production S) : Prop :=
  pr ∈ g.productions ∧ pr.dotted pr.symbols.length ∈ c.itemsOf q

def Found (g : Grammar S) (c : Collection S) (start : S) (q : Nat) (pr : Production S) (t : S) : Prop :=
  ∃ found, find? (compute g c start) q (pr.dotted pr.symbols.length) = some found ∧ t ∈ found

def Exact (g : Grammar S) (c : Collection S) (start : S) : Prop :=
  ∀ {q pr}, EndsIn g c q pr → ∀ t, Found g c start q pr t ↔ IsLookahead g c q pr t

def Reaches (g : Grammar S) (c : Collection S) (q : Nat) (pr : Production S) (t : S) : Prop :=
  ∃ d, ∃ u ∈ transitions g c, LooksBack c d u q (pr.dotted pr.symbols.length) ∧ Gathered g c u t

section Exact

variable (hr : g.Ready p start) (hs : Sorted g) (hc : Explored g p c) {q : Nat} {pr : Production S} {t : S}

include hr hs hc

lemma IsLookahead.found (h : EndsIn g c q pr) (ht : IsLookahead g c q pr t) : Found g c start q pr t := by
  obtain ⟨found, hfound, hmem⟩ := exists_compute hr hs hc h.1 h.2
  exact ⟨found, hfound, hmem t ht⟩

lemma Found.reaches (hend : g.endless = []) (h : EndsIn g c q pr) (ht : Found g c start q pr t) : Reaches g c q pr t := by
  obtain ⟨found, hfound, hmem⟩ := ht
  exact exists_gathered hr hs hc hend hfound h.1 hmem

lemma Reaches.found (hapart : ∀ u v, ReadTogether g c u v → u = v) (h : EndsIn g c q pr) (ht : Reaches g c q pr t) :
    Found g c start q pr t := by
  obtain ⟨d, u, hu, hback, hgathered⟩ := ht
  obtain ⟨found, hfound, -⟩ := exists_compute hr hs hc h.1 h.2
  exact ⟨found, hfound, mem_of_gathered hr hs hc hfound hapart h.2 hu hback hgathered⟩

lemma exact_iff (hend : g.endless = []) (hapart : ∀ u v, ReadTogether g c u v → u = v) :
    Exact g c start ↔ ∀ {q pr}, EndsIn g c q pr → ∀ t, Reaches g c q pr t → IsLookahead g c q pr t := by
  constructor
  · intro h q pr hpr t ht
    exact (h hpr t).mp (ht.found hr hs hc hapart hpr)
  · intro h q pr hpr t
    exact ⟨fun ht => h hpr t (ht.reaches hr hs hc hend hpr), fun ht => ht.found hr hs hc hpr⟩

lemma Harmless.exact (h : Harmless g c) (hend : g.endless = []) : Exact g c start := by
  intro q pr hpr t
  refine ⟨fun ht => ?_, fun ht => ht.found hr hs hc hpr⟩
  obtain ⟨d, u, hu, hback, hgathered⟩ := ht.reaches hr hs hc hend hpr
  exact h.isLookahead hc hu hback hgathered

end Exact

lemma harmless_of_begin (hbegin : ∀ u ∈ transitions g c, ∀ i ∈ c.itemsOf u.1, i.name = u.2 → i.dot = 0)
    (hreads : ∀ u ∈ transitions g c, reads c g.nullable u = []) : Harmless g c where
  stray hd hu _ hpass _ := by
    obtain ⟨pr, -, -, hmem, hname, -⟩ := hpass
    have hzero := hbegin _ hu _ hmem hname
    exact absurd hzero (Nat.ne_of_gt hd)
  shared hu _ htogether ht := by
    rcases ReflTransGen.cases_head htogether.1 with rfl | ⟨w, hw, -⟩
    · exact ht
    · rw [hreads _ hu] at hw
      cases hw
  back hd hu hback _ := by
    obtain ⟨pr, hmem, hname, -⟩ := hback
    have hzero := hbegin _ hu _ hmem hname
    exact absurd hzero (Nat.ne_of_gt hd)

/-- A conflict under the exact lookaheads: a symbol is expected and also a lookahead of a complete production. -/
def MayShiftOrReduce (g : Grammar S) (c : Collection S) (q : Nat) (s : S) : Prop :=
  (∃ i ∈ c.itemsOf q, i.next? = some s ∧ g.isTerminal s = true) ∧ ∃ pr, EndsIn g c q pr ∧ IsLookahead g c q pr s

/-- A conflict under the exact lookaheads: two complete productions have one in common. -/
def MayReduceTwice (g : Grammar S) (c : Collection S) (q n n' : Nat) : Prop :=
  n ≠ n' ∧ ∃ pr pr' s, pr.number = n ∧ pr'.number = n' ∧ EndsIn g c q pr ∧ EndsIn g c q pr' ∧
    IsLookahead g c q pr s ∧ IsLookahead g c q pr' s

section Conflicts

variable (hr : g.Ready p start) (h : (Table.build g p).error? = none) (hexact : Exact g (build g p) start) {q : Nat}

include hr h hexact

lemma Exact.mayShiftOrReduce {s : S} {r : Resolution} (hmem : (q, s, r) ∈ (Table.build g p).shiftReduceConflicts) :
    MayShiftOrReduce g (build g p) q s := by
  obtain ⟨hshift, pr, hpr, hends, found, hfound, hs⟩ := of_shiftReduceConflict hr h hmem
  exact ⟨hshift, pr, ⟨hpr, hends⟩, (hexact ⟨hpr, hends⟩ s).mp ⟨found, hfound, hs⟩⟩

lemma Exact.mayReduceTwice {n n' : Nat} (hmem : (q, n, n') ∈ (Table.build g p).reduceReduceConflicts) :
    MayReduceTwice g (build g p) q n n' := by
  obtain ⟨pr, hpr, pr', hpr', rfl, rfl, hne, hends, hends', found, found', s, hfound, hfound', hs, hs'⟩ :=
    of_reduceReduceConflict hr h hmem
  exact ⟨hne, pr, pr', s, rfl, rfl, ⟨hpr, hends⟩, ⟨hpr', hends'⟩, (hexact ⟨hpr, hends⟩ s).mp ⟨found, hfound, hs⟩,
    (hexact ⟨hpr', hends'⟩ s).mp ⟨found', hfound', hs'⟩⟩

end Conflicts

def sealedOff (g : Grammar S) (c : Collection S) (steps : List (Transition S)) : Bool :=
  (steps.all fun u => (c.itemsOf (target c u)).all fun i => i.next? = none) &&
    (transitions g c).all fun u => (c.itemsOf u.1).all fun i => (List.range i.symbols.length).all fun k =>
      i.dot != 0 || i.name ≠ u.2 || steps.contains u ||
        (c.reach? u.1 (i.symbols.take k)).all fun r => !(steps.map some).contains ((i.symbols[k]?).map (r, ·))

lemma not_follows_of_sealedOff {steps : List (Transition S)} (h : sealedOff g c steps = true) {t : S} (ht : t ≠ endMark)
    {u : Transition S} (hu : u ∈ steps) : ¬ Follows g c start u.1 u.2 t := by
  rw [sealedOff, Bool.and_eq_true] at h
  obtain ⟨hread, hpassed⟩ := h
  intro hfollows
  obtain ⟨q, s⟩ := u
  dsimp only at hfollows
  induction hfollows with
  | @starts q r s t hgoto hstarts =>
    have hnone := all_eq_true.mp (all_eq_true.mp hread _ hu)
    rw [target_eq hgoto] at hnone
    cases hstarts with
    | here hi hnext _ =>
      rw [of_decide_eq_true (hnone _ hi)] at hnext
      cases hnext
    | past hi hnext _ _ _ =>
      rw [of_decide_eq_true (hnone _ hi)] at hnext
      cases hnext
  | last => exact ht rfl
  | @outer q r pr before after s t hi htrans hsym _ hreach _ ih =>
    refine ih ht ?_
    have hlen : before.length < (pr.dotted 0).symbols.length := by
      rw [Production.dotted, hsym, length_append, length_cons]
      omega
    have hget : (pr.dotted 0).symbols[before.length]? = some s := by simp [Production.dotted, hsym]
    have htake : (pr.dotted 0).symbols.take before.length = before := by simp [Production.dotted, hsym]
    have hall := all_eq_true.mp (all_eq_true.mp (all_eq_true.mp hpassed _ htrans) _ hi) _
      (mem_range.mpr hlen)
    rw [htake, hget, hreach] at hall
    simpa [Production.dotted, hu] using hall

end Lookahead

namespace Parser

open Lookahead

section Made

variable {β : Type} {ds : Declarations β} {opts : BuildOptions} {b : Built} {logs : Logs}

/-- No lookahead is missing. One that is too many was passed on to the step that a production began with from a step that
comes after the beginning of a production, or from one that shares its set. If there is no such step, or what it passes on
adds nothing, the lookaheads are exact, and then so are the conflicts. -/
theorem lookaheads_exact (hbuild : Parser.build ds opts = (.ok b, logs)) (hcheck : opts.checkRecursion = true)
    (hapart : ∀ s, b.grammar.isTerminal s = true → b.grammar.isNonterminal s = false) :
    ∃ p start, b.grammar.augmented = some p ∧ b.grammar.start = some start ∧
      (∀ {q pr}, EndsIn b.grammar (Collection.build b.grammar p) q pr →
        (∀ t, IsLookahead b.grammar (Collection.build b.grammar p) q pr t →
          Found b.grammar (Collection.build b.grammar p) start q pr t) ∧
        ∀ t, Found b.grammar (Collection.build b.grammar p) start q pr t →
          Reaches b.grammar (Collection.build b.grammar p) q pr t) ∧
      ((∀ u v, ReadTogether b.grammar (Collection.build b.grammar p) u v → u = v) →
        (Exact b.grammar (Collection.build b.grammar p) start ↔
          ∀ {q pr}, EndsIn b.grammar (Collection.build b.grammar p) q pr → ∀ t,
            Reaches b.grammar (Collection.build b.grammar p) q pr t →
              IsLookahead b.grammar (Collection.build b.grammar p) q pr t)) ∧
      (Harmless b.grammar (Collection.build b.grammar p) → Exact b.grammar (Collection.build b.grammar p) start) ∧
      (Exact b.grammar (Collection.build b.grammar p) start →
        (∀ {q s r}, (q, s, r) ∈ b.table.shiftReduceConflicts →
          MayShiftOrReduce b.grammar (Collection.build b.grammar p) q s) ∧
        ∀ {q n n'}, (q, n, n') ∈ b.table.reduceReduceConflicts →
          MayReduceTwice b.grammar (Collection.build b.grammar p) q n n') := by
  obtain ⟨p, start, hmade⟩ := made_build hbuild
  have hr := hmade.ready
  have hs := hr.sorted hapart
  have hend := hmade.endless hcheck
  have hfinished := hmade.finished
  rw [hmade.table] at hfinished
  refine ⟨p, start, hr.augmented, hmade.start, ?_, exact_iff hr hs hr.explored hend, ?_, ?_⟩
  · intro q pr hpr
    exact ⟨fun t ht => ht.found hr hs hr.explored hpr, fun t ht => ht.reaches hr hs hr.explored hend hpr⟩
  · exact fun h => h.exact hr hs hr.explored hend
  · intro hexact
    rw [hmade.table]
    exact ⟨fun hmem => hexact.mayShiftOrReduce hr hfinished hmem, fun hmem => hexact.mayReduceTwice hr hfinished hmem⟩

end Made

def additions : Declarations Behaviour where
  file := "additions"
  attributes := [("tokens", .value (.list [.text "NUM", .text "PLUS"])),
    ("p_sum", .routine ⟨"p_sum", some "sum : sum PLUS NUM\n | NUM", 1, 1, false, .rule {}⟩)]
  source := none

def additionsParser : Built :=
  (Parser.build additions {}).1.toOption.get (by decide +kernel)

theorem lookaheads_exact_additions : ∃ (b : Built) (logs : Logs) (p : Production String) (start : String),
    Parser.build additions {} = (.ok b, logs) ∧
    (∀ s, b.grammar.isTerminal s = true → b.grammar.isNonterminal s = false) ∧ b.grammar.augmented = some p ∧
    b.grammar.start = some start ∧ Harmless b.grammar (Collection.build b.grammar p) ∧
    Exact b.grammar (Collection.build b.grammar p) start := by
  have hapart : ∀ s ∈ additionsParser.grammar.terminals.keys, additionsParser.grammar.isNonterminal s = false := by
    decide +kernel
  have hapart' := fun s hs => hapart s ((Registry.contains_iff_mem_keys _ _).mp hs)
  obtain ⟨p, start, hp, hstart, -, -, hharmless, -⟩ := lookaheads_exact (b := additionsParser) (eq_built _) rfl hapart'
  have hchecked : (additionsParser.grammar.augmented.all fun p =>
      (transitions additionsParser.grammar (Collection.build additionsParser.grammar p)).all fun u =>
        ((Collection.build additionsParser.grammar p).itemsOf u.1).all (fun i => i.name ≠ u.2 || i.dot = 0) &&
        (reads (Collection.build additionsParser.grammar p) additionsParser.grammar.nullable u).isEmpty) = true := by
    decide +kernel
  rw [hp, Option.all_some] at hchecked
  have hall := fun u hu => Bool.and_eq_true_iff.mp (all_eq_true.mp hchecked u hu)
  have hsafe := harmless_of_begin
    (fun u hu i hi hname => by simpa [hname] using all_eq_true.mp (hall u hu).1 i hi)
    (fun u hu => List.isEmpty_iff.mp (hall u hu).2)
  exact ⟨additionsParser, _, p, start, eq_built _, hapart', hp, hstart, hsafe, hharmless hsafe⟩

/-- An operand is also the beginning of a longer form: in `X k U W` the symbol `U` is not an operand. -/
def operands : Declarations Behaviour where
  file := "operands"
  attributes := [("tokens", .value (.list [.text "U", .text "W", .text "X"])),
    ("p_k", .routine ⟨"p_k", some "k : n W", 3, 1, false, .rule {}⟩),
    ("p_n", .routine ⟨"p_n", some "n : X k n\n | U", 2, 1, false, .rule {}⟩),
    ("p_s", .routine ⟨"p_s", some "s : n\n | X k U W", 1, 1, false, .rule {}⟩)]
  source := none

def operandsParser : Built :=
  (Parser.build operands {}).1.toOption.get (by decide +kernel)

def spreads (g : Grammar String) (start : String) (p : Production String) : Bool :=
  let c := Collection.build g p
  (c.itemsOf 9).all (fun i => i.next? ≠ none || i.name = "n" && i.symbols = ["U"]) &&
    (transitions g c).all (fun u => c.reach? u.1 ["U"] ≠ some 9 || u.1 = 6) &&
    sealedOff g c [(6, "n"), (0, "n"), (0, "s")] &&
    g.productions.any (fun pr => c.itemsOf 9 |>.any fun i => i = pr.dotted pr.symbols.length &&
      ((find? (compute g c start) 9 i).getD []).contains "W")

lemma not_isLookahead_of_spreads {g : Grammar String} {start : String} {p : Production String} (hr : g.Ready p start)
    (hs : Sorted g) (h : spreads g start p = true) {pr : Production String} (hpr : EndsIn g (Collection.build g p) 9 pr) :
    ¬ IsLookahead g (Collection.build g p) 9 pr "W" := by
  simp only [spreads, Bool.and_eq_true] at h
  obtain ⟨⟨⟨hitems, hsteps⟩, hsealed⟩, -⟩ := h
  intro hahead
  have hend : (pr.dotted pr.symbols.length).next? = none := List.getElem?_eq_none_iff.mpr (Nat.le_refl _)
  have hshape := all_eq_true.mp hitems _ hpr.2
  simp only [hend, ne_eq, not_true_eq_false, decide_false, Bool.false_or, Bool.and_eq_true, decide_eq_true_eq] at hshape
  obtain ⟨hname, hsym⟩ : pr.name = "n" ∧ pr.symbols = ["U"] := hshape
  obtain ⟨q, hreach, hafter⟩ := isLookahead_iff.mp hahead
  rw [hsym] at hreach
  rw [hname] at hafter
  obtain ⟨htrans, hfollows⟩ := follows_of_comesAfter hr hs hr.explored hafter (hname ▸ hs.name hpr.1)
  have hq := all_eq_true.mp hsteps _ htrans
  simp only [hreach, ne_eq, not_true_eq_false, decide_false, Bool.false_or, decide_eq_true_eq] at hq
  subst hq
  exact not_follows_of_sealedOff hsealed (by decide) (mem_cons_self) hfollows

/-- A lookahead that is none, and a conflict that is none. -/
theorem lookahead_beyond : ∃ (b : Built) (logs : Logs) (p : Production String) (start : String) (q : Nat)
    (pr : Production String), Parser.build operands {} = (.ok b, logs) ∧
    (∀ s, b.grammar.isTerminal s = true → b.grammar.isNonterminal s = false) ∧ b.grammar.augmented = some p ∧
    b.grammar.start = some start ∧ EndsIn b.grammar (Collection.build b.grammar p) q pr ∧
    Found b.grammar (Collection.build b.grammar p) start q pr "W" ∧
    ¬ IsLookahead b.grammar (Collection.build b.grammar p) q pr "W" ∧
    (q, "W", .shift) ∈ b.table.shiftReduceConflicts ∧
    ¬ MayShiftOrReduce b.grammar (Collection.build b.grammar p) q "W" := by
  have hapart : ∀ s ∈ operandsParser.grammar.terminals.keys, operandsParser.grammar.isNonterminal s = false := by
    decide +kernel
  have hapart' := fun s hs => hapart s ((Registry.contains_iff_mem_keys _ _).mp hs)
  have hspreads : (operandsParser.grammar.augmented.all fun p =>
      operandsParser.grammar.start.all fun start => spreads operandsParser.grammar start p) = true := by
    decide +kernel
  have hconflict : (9, "W", Resolution.shift) ∈ operandsParser.table.shiftReduceConflicts := by
    decide +kernel
  obtain ⟨p, start, hmade⟩ := made_build (b := operandsParser) (eq_built _)
  have hr := hmade.ready
  have hs := hr.sorted hapart'
  rw [hr.augmented, Option.all_some, hmade.start, Option.all_some] at hspreads
  have hchecked := hspreads
  simp only [spreads, Bool.and_eq_true] at hchecked
  obtain ⟨pr, hpr, hany⟩ := any_eq_true.mp hchecked.2
  obtain ⟨i, hi, hfound⟩ := any_eq_true.mp hany
  obtain ⟨rfl, hmem⟩ : i = pr.dotted pr.symbols.length ∧ _ := by simpa using hfound
  refine ⟨operandsParser, _, p, start, 9, pr, eq_built _, hapart', hr.augmented, hmade.start, ⟨hpr, hi⟩, ?_,
    not_isLookahead_of_spreads hr hs hspreads ⟨hpr, hi⟩, hconflict, ?_⟩
  · cases hfind : find? (compute _ (Collection.build _ p) start) 9 (pr.dotted pr.symbols.length) with
    | none =>
      rw [hfind] at hmem
      simp at hmem
    | some found =>
      rw [hfind] at hmem
      exact ⟨found, hfind, by simpa using hmem⟩
  · rintro ⟨-, pr', hpr', hahead⟩
    exact not_isLookahead_of_spreads hr hs hspreads hpr' hahead

end Parser

end LispKit
