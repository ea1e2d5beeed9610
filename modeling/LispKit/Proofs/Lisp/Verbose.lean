import LispKit.Proofs.Lisp.Exhibit

/-! Verbose runs: they end as plain ones do, unless an error at the end of the source cannot be named, an error comes
before a numeral that is too long, or a variable is too long to be printed. -/

namespace LispKit.Lisp

open Lexeme Reading

structure Outcome.EndsLike (o o' : Outcome) : Prop where
  failure : o'.failure = o.failure
  valid : o'.run.desk.valid = o.run.desk.valid
  store : o'.run.store.bare = o.run.store.bare

/-- The second outcome is a failure, and the first one is none or has another judgement of the program. -/
def Outcome.FailsApart (o o' : Outcome) : Prop :=
  o'.failure ≠ none ∧ (o.failure = none ∨ o'.run.desk.valid ≠ o.run.desk.valid)

lemma Outcome.EndsLike.not_failsApart {o o' : Outcome} (h : o.EndsLike o') : ¬ o.FailsApart o' := by
  rintro ⟨hfails, hnone | hvalid⟩
  · exact hfails (h.failure.trans hnone)
  · exact hvalid h.valid

/-- What keeps a verbose run from ending as the plain one does. -/
inductive Disturbed (limits : Limits) (source : String) : Prop
  /-- There is an error at the end of the source, and so no token that it could be reported for. -/
  | cutShort : ShortNumerals (pieces source.toList) →
      (Wording.read limits.steps (lexemes (pieces source.toList))).config.host.cutShort = true →
      Disturbed limits source
  /-- There is an error before a numeral that is too long. A verbose run comes to the numeral first. -/
  | masked {e : Scanner.ScanError} : (runProgram limits false source {}).failure = some e →
      (runProgram limits false source {}).run.desk.valid = false → Disturbed limits source
  /-- A variable is too long to be printed. -/
  | unprintable {e : Key × Value} {n : Int} : (runProgram limits false source {}).failure = none →
      (runProgram limits false source {}).run.desk.valid = true →
      e ∈ (runProgram limits false source {}).run.store.globals.entries → e.2 = .int n →
      Text.exceedsDigitLimit n = true → Disturbed limits source

def EndsEither (limits : Limits) (source : String) : Prop :=
  (runProgram limits false source {}).EndsLike (runProgram limits true source {}) ∧ ¬ Disturbed limits source ∨
    Disturbed limits source ∧ (runProgram limits false source {}).FailsApart (runProgram limits true source {})

section Ends

open Running

variable {limits : Limits} {source : String} {r : Except Fault Value} {run : Run} {verbose : Bool} {store t : Store}
  {n : Node}

lemma runProgram_ok
    (h : (program limits verbose source).run.run { desk := { verbose := verbose }, store := store } = (.ok (), run)) :
    runProgram limits verbose source store = ⟨none, run⟩ := by
  simp only [runProgram, h]

lemma runProgram_error {e : Scanner.ScanError}
    (h : (program limits verbose source).run.run { desk := { verbose := verbose }, store := store } = (.error e, run)) :
    runProgram limits verbose source store = ⟨some e, run⟩ := by
  simp only [runProgram, h]

lemma evaluate_alike {n' : Node} (h : n'.bare = n.bare) {d : Nat} {s : Store}
    (he : Lisp.evaluate true d n s = (r, t)) : ∃ t', Lisp.evaluate true d n' s = (r, t') ∧ t'.bare = t.bare := by
  have hn' := evaluate_seen true "" d n' s
  rw [h, evaluate_seen, he, Prod.mk.injEq, Store.seen_empty, Store.seen_empty] at hn'
  exact ⟨(Lisp.evaluate true d n' s).2, Prod.ext hn'.1.symm rfl, hn'.2.symm⟩

lemma plain_valid {v : Option Phrase} {c : Parser.Config Symbol Phrase Reading}
    (hread : read limits tables {} scanner {} source = .finished v c) (hvalid : c.host.desk.valid = true)
    (htree : treeOf v = some n) (he : Lisp.evaluate true limits.depth n {} = (r, t)) :
    ∃ run, runProgram limits false source {} = ⟨failureOf r, run⟩ ∧ run.desk.valid = true ∧ run.store = t := by
  have hrun := runProgram_eq hread {}
  rw [hvalid, htree, if_pos rfl, run_evaluate limits n _ he] at hrun
  cases hf : failureOf r with
  | some e =>
    rw [run_close_failed hf] at hrun
    exact ⟨_, hrun, hvalid, rfl⟩
  | none =>
    obtain ⟨d, hflags, hclose⟩ := prints_close hf
      { desk := { c.host.desk with out := c.host.desk.out ++ t.out }, scanner := c.host.scanner, store := t }
    rw [hclose] at hrun
    exact ⟨_, hrun, hflags.valid.trans hvalid, rfl⟩

-- A reading takes its input anew, wherever the scanner stood.
lemma read_placed (t : Parser.Tables Symbol) (m : Parser.Mode) (sc : LispScanner) (d : Desk) (q : Nat) :
    read limits t m (placed sc source.toList q) d source = read limits t m sc d source := rfl

lemma tree_alike {v₀ v v' : Option Phrase} (h : Option.Rel SamePhrase v₀ v) (h' : Option.Rel SamePhrase v₀ v')
    (hn : treeOf v = some n) : ∃ n', treeOf v' = some n' ∧ n'.bare = n.bare ∧ n'.Writable := by
  cases h with
  | none => cases hn
  | some hlike =>
    cases h' with
    | some hlike' =>
      rename_i p₀ p p'
      cases p with
      | nothing | text => cases hn
      | node m =>
        cases hn
        obtain ⟨n', rfl, hbare⟩ := Phrase.bare_eq_node (hlike'.bare.trans hlike.bare.symm)
        exact ⟨n', rfl, hbare, hlike'.writable⟩

lemma undisturbed {f : Option Scanner.ScanError} (hplain : runProgram limits false source {} = ⟨f, run⟩)
    (hcut : ShortNumerals (pieces source.toList) →
      (Wording.read limits.steps (lexemes (pieces source.toList))).config.host.cutShort = false)
    (hmasked : f = none ∨ run.desk.valid = true)
    (hprint : f = none → run.desk.valid = true → ∀ e ∈ run.store.globals.entries, ∃ text, e.2.write = .ok text) :
    ¬ Disturbed limits source := by
  intro h
  cases h with
  | cutShort hshort hcut' =>
    rw [hcut hshort] at hcut'
    cases hcut'
  | masked hsome hfalse =>
    rw [hplain] at hsome hfalse
    rcases hmasked with hnone | hvalid
    · cases hnone.symm.trans hsome
    · cases hvalid.symm.trans hfalse
  | unprintable hnone hvalid he hint hlong =>
    rw [hplain] at hnone hvalid he
    cases hlong.symm.trans (Value.exists_write_iff.mp (hprint hnone hvalid _ he) _ hint)

variable (hsteps : 14 * source.length + 4 ≤ limits.steps) (hdepth : 0 < limits.depth)

include hsteps

lemma length_lt_steps : source.toList.length < limits.steps := by
  rw [String.length_toList]
  omega

lemma words_finish : ∃ v c, Wording.read limits.steps (readable (lexemes (pieces source.toList))) = .finished v c ∧
    c.host.ended = true ∧ (c.host.cutShort = true → c.host.valid = false) := by
  refine Wording.read_finishes ?_
  have hreadable := (List.takeWhile_sublist (p := isShort) (l := lexemes (pieces source.toList))).length_le
  have hlexemes := length_lexemes_le source.toList
  rw [String.length_toList] at hlexemes
  rw [readable]
  omega

include hdepth

section Long

variable {w : List Char} (hw : overlong? (lexemes (pieces source.toList)) = some w)

include hw

lemma plain_overlong : ∃ run, runProgram limits false source {} = ⟨some (.fault (.longNumeral (digitCount w))), run⟩ ∧
    run.store = {} := by
  obtain ⟨v, c, hwords, hended, -⟩ := words_finish hsteps
  have hread := read_pursues (length_lt_steps hsteps) hdepth (d := {}) rfl 0
  rw [hwords, read_placed] at hread
  generalize hr : read limits tables {} scanner {} source = r at hread
  cases hread with
  | finished _ hnear =>
    have hnone := hnear.ended hended
    rw [hw] at hnone
    cases hnone
  | cut _ c' hcut =>
    obtain ⟨w', hw', rfl⟩ := hcut
    obtain rfl : w = w' := Option.some.inj (hw.symm.trans hw')
    have hrun := run_program limits source {}
    rw [run_readSource_failed hr] at hrun
    exact ⟨_, runProgram_error hrun, rfl⟩
  | stopped _ _ hstop => cases hstop.1

lemma verbose_overlong : ∃ run, runProgram limits true source {} = ⟨some (.fault (.longNumeral (digitCount w))), run⟩ ∧
    run.desk.valid = true ∧ run.store = {} := by
  obtain ⟨q, d, hflags, hlist⟩ :=
    run_listTokens (length_lt_steps hsteps) hdepth { desk := { verbose := true } } rfl
  rw [scanned, hw] at hlist
  have hrun := run_verbose limits source { desk := { verbose := true } }
  rw [hlist] at hrun
  exact ⟨_, runProgram_error hrun, hflags.valid, rfl⟩

lemma ends_overlong : EndsEither limits source := by
  obtain ⟨run, hplain, hstore⟩ := plain_overlong hsteps hdepth hw
  obtain ⟨run', hverbose, hvalid', hstore'⟩ := verbose_overlong hsteps hdepth hw
  rw [EndsEither, hplain, hverbose]
  cases hvalid : run.desk.valid with
  | true =>
    refine .inl ⟨⟨rfl, hvalid'.trans hvalid.symm, by rw [hstore, hstore']⟩,
      undisturbed hplain (fun hshort => ?_) (.inr hvalid) nofun⟩
    rw [← overlong?_eq_none, hw] at hshort
    cases hshort
  | false =>
    refine .inr ⟨.masked (by rw [hplain]) (by rw [hplain, hvalid]), by simp, .inr ?_⟩
    simp [hvalid, hvalid']

end Long

section Short

variable (hshort : ShortNumerals (pieces source.toList))

include hshort

lemma verbose_listed : ∃ (q : Nat) (d : Desk), d.valid = true ∧ d.verbose = true ∧
    (program limits true source).run.run { desk := { verbose := true } } =
      match (readSource limits source).run.run { scanner := placed scanner source.toList q, desk := d } with
      | (.error e, run) => (.error e, run)
      | (.ok tree, run) => (if run.desk.valid then exhibit limits tree else print "syntax error").run.run run := by
  obtain ⟨q, d, hflags, hlist⟩ :=
    run_listTokens (length_lt_steps hsteps) hdepth { desk := { verbose := true } } rfl
  have hscanned : scanned (lexemes (pieces source.toList)) = .ok () := by rw [scanned, overlong?_eq_none.mpr hshort]
  have hrun := run_verbose limits source { desk := { verbose := true } }
  rw [hlist, hscanned] at hrun
  exact ⟨q, d, hflags.valid, hflags.verbose, hrun⟩

variable {v₀ : Option Phrase} {c₀ : Parser.Config Symbol Phrase Wording}
  (hwords : Wording.read limits.steps (lexemes (pieces source.toList)) = .finished v₀ c₀)

include hwords

lemma read_short {d : Desk} (hvalid : d.valid = true) :
    (∃ v c, read limits tables {} scanner d source = .finished v c ∧ Option.Rel SamePhrase v₀ v ∧
      Beside source.toList d.verbose c₀.host c.host) ∨
    ∃ c, read limits tables {} scanner d source = .failed (.host unnamed) c ∧ d.verbose = true ∧
      c₀.host.cutShort = true := by
  have hread := read_pursues (length_lt_steps hsteps) hdepth hvalid 0
  rw [readable_eq hshort, hwords, read_placed] at hread
  generalize hr : read limits tables {} scanner d source = r at hread
  cases hread with
  | finished hlike hnear => exact .inl ⟨_, _, rfl, hlike, hnear⟩
  | cut _ _ hcut =>
    obtain ⟨w, hw, -⟩ := hcut
    rw [overlong?_eq_none.mpr hshort] at hw
    cases hw
  | stopped c hfatal hstop =>
    obtain ⟨hverbose, rfl⟩ := hstop
    exact .inr ⟨c, rfl, hverbose, hfatal⟩

lemma plain_read : ∃ v c, read limits tables {} scanner {} source = .finished v c ∧ Option.Rel SamePhrase v₀ v ∧
    c.host.desk.valid = c₀.host.valid := by
  rcases read_short hsteps hdepth hshort hwords (d := {}) rfl with ⟨v, c, hread, hlike, hnear⟩ | ⟨c, -, hfalse, -⟩
  · exact ⟨v, c, hread, hlike, hnear.valid⟩
  · cases hfalse

lemma verbose_cutShort (hcut : c₀.host.cutShort = true) :
    ∃ run, runProgram limits true source {} = ⟨some unnamed, run⟩ := by
  obtain ⟨q, d, hvalid, hverbose, hrun⟩ := verbose_listed hsteps hdepth hshort
  rcases read_short hsteps hdepth hshort hwords hvalid with ⟨_, _, -, -, hnear⟩ | ⟨c, hread, -, -⟩
  · have hsilent := hnear.silent hverbose
    rw [hcut] at hsilent
    cases hsilent
  · rw [← read_placed _ _ _ _ q] at hread
    rw [run_readSource_failed hread] at hrun
    exact ⟨_, runProgram_error hrun⟩

lemma verbose_read (hcut : c₀.host.cutShort = false) : ∃ (v : Option Phrase) (c : Reading), Option.Rel SamePhrase v₀ v ∧
    c.desk.valid = c₀.host.valid ∧ (program limits true source).run.run { desk := { verbose := true } } =
      (if c.desk.valid then exhibit limits (treeOf v) else print "syntax error").run.run
        { desk := c.desk, scanner := c.scanner } := by
  obtain ⟨q, d, hvalid, hverbose, hrun⟩ := verbose_listed hsteps hdepth hshort
  rcases read_short hsteps hdepth hshort hwords hvalid with ⟨v, c, hread, hlike, hnear⟩ | ⟨_, -, -, hfatal⟩
  · rw [← read_placed _ _ _ _ q] at hread
    refine ⟨v, c.host, hlike, hnear.valid, ?_⟩
    rw [hrun, run_readSource hread]
  · rw [hcut] at hfatal
    cases hfatal

lemma ends_cutShort (hcut : c₀.host.cutShort = true) (hinvalid : c₀.host.valid = false) : EndsEither limits source := by
  obtain ⟨v, c, hread, -, hvalid⟩ := plain_read hsteps hdepth hshort hwords
  obtain ⟨run, hverbose⟩ := verbose_cutShort hsteps hdepth hshort hwords hcut
  rw [EndsEither, runProgram_invalid hread (hvalid.trans hinvalid), hverbose]
  exact .inr ⟨.cutShort hshort (by rw [hwords]; exact hcut), by simp, .inl rfl⟩

variable (hcut : c₀.host.cutShort = false)

include hcut

lemma ends_invalid (hinvalid : c₀.host.valid = false) : EndsEither limits source := by
  obtain ⟨v, c, hread, -, hvalid⟩ := plain_read hsteps hdepth hshort hwords
  obtain ⟨v', c', -, hvalid', hrun⟩ := verbose_read hsteps hdepth hshort hwords hcut
  rw [hvalid', hinvalid] at hrun
  have hplain := runProgram_invalid hread (hvalid.trans hinvalid) {}
  refine .inl ⟨?_, undisturbed hplain (fun _ => by rw [hwords]; exact hcut) (.inl rfl) fun _ htrue => ?_⟩
  · rw [hplain, runProgram_ok hrun]
    exact ⟨rfl, hvalid'.trans hvalid.symm, rfl⟩
  · cases htrue.symm.trans (hvalid.trans hinvalid)

lemma ends_valid (htrue : c₀.host.valid = true) : EndsEither limits source := by
  obtain ⟨v, c, hread, hlike, hvalid⟩ := plain_read hsteps hdepth hshort hwords
  obtain ⟨v', c', hlike', hvalid', hrun⟩ := verbose_read hsteps hdepth hshort hwords hcut
  rw [htrue] at hvalid hvalid'
  obtain ⟨p, n, -, htree, hnode⟩ := read_valid hsteps hdepth hshort rfl hread hvalid
  obtain ⟨n', htree', hbare, hwritable⟩ := tree_alike hlike hlike' htree
  rw [hvalid', htree', if_pos rfl] at hrun
  obtain ⟨r, t, he⟩ : ∃ r t, Lisp.evaluate true limits.depth n {} = (r, t) := ⟨_, _, rfl⟩
  obtain ⟨t', he', hstore⟩ := evaluate_alike hbare he
  obtain ⟨run, hplain, hrunValid, rfl⟩ := plain_valid hread hvalid htree he
  have hglobals : t'.globals = run.store.globals := by
    change t'.bare.globals = run.store.bare.globals
    rw [hstore]
  have hnotCut : (Wording.read limits.steps (lexemes (pieces source.toList))).config.host.cutShort = false := by
    rw [hwords]
    exact hcut
  have hnamed : t'.Named := by
    have hn' : n'.IsTree := ⟨_, p.tree_node.of_bare (by rw [hbare, hnode, p.bare_node])⟩
    have hkept : Kept {} (Lisp.evaluate true limits.depth n' {}).2 :=
      stable_kept.evaluate limits.depth hn' Store.Proper.empty
    rw [he'] at hkept
    exact hkept.2 ⟨fun e he => (List.not_mem_nil he).elim, fun e he => (List.not_mem_nil he).elim⟩
  cases hf : failureOf r with
  | some e =>
    obtain ⟨d, hflags, hexhibit⟩ := run_exhibit_failed { desk := c'.desk, scanner := c'.scanner } hwritable he' hf
    rw [hexhibit] at hrun
    rw [hf] at hplain
    refine .inl ⟨?_, undisturbed hplain (fun _ => hnotCut) (.inr hrunValid) nofun⟩
    rw [hplain, runProgram_error hrun]
    exact ⟨rfl, (hflags.valid.trans hvalid').trans hrunValid.symm, hstore⟩
  | none =>
    obtain ⟨d, hflags, hexhibit⟩ := run_exhibit_shown { desk := c'.desk, scanner := c'.scanner } hwritable he' hf
    rw [hexhibit, run_bind] at hrun
    rw [hf] at hplain
    by_cases hall : ∀ e ∈ t'.globals.entries, ∃ text, e.2.write = .ok text
    · obtain ⟨d', hflags', hshown⟩ := prints_storeText hnamed hall { desk := d, scanner := c'.scanner, store := t' }
      rw [hshown] at hrun
      rw [hglobals] at hall
      refine .inl ⟨?_, undisturbed hplain (fun _ => hnotCut) (.inr hrunValid) fun _ _ => hall⟩
      rw [hplain, runProgram_ok (hrun.trans (run_drawProgram hwritable _).choose_spec)]
      exact ⟨rfl, ((hflags.trans hflags').valid.trans hvalid').trans hrunValid.symm, hstore⟩
    · obtain ⟨e, hfails⟩ := storeText_fails hnamed hall
      rw [hfails] at hrun
      simp only [hglobals, Value.exists_write_iff, not_forall, Bool.not_eq_false] at hall
      obtain ⟨entry, hmem, m, hint, hlong⟩ := hall
      have hdisturbed : Disturbed limits source :=
        .unprintable (by rw [hplain]) (by rw [hplain, hrunValid]) (by rw [hplain]; exact hmem) hint hlong
      rw [EndsEither, hplain, runProgram_error hrun]
      exact .inr ⟨hdisturbed, by simp, .inl rfl⟩

end Short

lemma ends_either : EndsEither limits source := by
  cases hw : overlong? (lexemes (pieces source.toList)) with
  | some w => exact ends_overlong hsteps hdepth hw
  | none =>
    have hshort := overlong?_eq_none.mp hw
    obtain ⟨v, c, hwords, -, hcut⟩ := words_finish hsteps
    rw [readable_eq hshort] at hwords
    cases hcutShort : c.host.cutShort with
    | true => exact ends_cutShort hsteps hdepth hshort hwords hcutShort (hcut hcutShort)
    | false =>
      cases hvalid : c.host.valid with
      | true => exact ends_valid hsteps hdepth hshort hwords hcutShort hvalid
      | false => exact ends_invalid hsteps hdepth hshort hwords hcutShort hvalid

end Ends

/-- A verbose run of a source ends as the plain one does, with the same failure or none, the same judgement of the
program and the same store, unless it is disturbed. Then it fails. -/
theorem verbose_ends_like_iff (source : String) (limits : Limits) (hsteps : 14 * source.length + 4 ≤ limits.steps)
    (hdepth : 0 < limits.depth) :
    ((runProgram limits false source {}).EndsLike (runProgram limits true source {}) ↔ ¬ Disturbed limits source) ∧
      (Disturbed limits source →
        (runProgram limits false source {}).FailsApart (runProgram limits true source {})) := by
  rcases ends_either hsteps hdepth with ⟨hlike, hnot⟩ | ⟨hdisturbed, happart⟩
  · exact ⟨⟨fun _ => hnot, fun _ => hlike⟩, fun h => absurd h hnot⟩
  · exact ⟨⟨fun hlike => absurd happart hlike.not_failsApart, fun hnot => absurd hdisturbed hnot⟩, fun _ => happart⟩

theorem verbose_ends_like_successor :
    (runProgram ⟨1000, 12⟩ false successorSource {}).EndsLike (runProgram ⟨1000, 12⟩ true successorSource {}) := by
  refine (verbose_ends_like_iff successorSource ⟨1000, 12⟩ (by decide) (by decide)).1.mpr ?_
  obtain ⟨r, u, hu⟩ : ∃ r u, evaluate true 12 successorProgram.node (Store.bare {}) = (r, u) := ⟨_, _, rfl⟩
  have hok : (evaluate true 12 successorProgram.node (Store.bare {})).1.toOption.isSome = true := by decide +kernel
  have hglobals : (evaluate true 12 successorProgram.node (Store.bare {})).2.globals.entries.isEmpty = true := by
    decide +kernel
  rw [hu] at hok hglobals
  obtain ⟨run, hplain, -, rfl⟩ : ∃ run, runProgram ⟨1000, 12⟩ false successorSource {} = ⟨failureOf r, run⟩ ∧ _ ∧
      run.store.bare = u := spells_successor.runProgram (by decide) (by decide) {} hu
  have hfailure : failureOf r = none := by
    cases r with
    | ok v => rfl
    | error f => cases hok
  refine undisturbed hplain (fun _ => ?_) (.inl hfailure) fun _ _ e he => ?_
  · rw [spells_successor.1]
    exact Wording.cutShort_program successorProgram (by decide +kernel)
  · rw [show run.store.globals.entries = [] from List.isEmpty_iff.mp hglobals] at he
    cases he

theorem verbose_fails_on_empty : (runProgram ⟨4, 1⟩ false "" {}).failure = none ∧
    (runProgram ⟨4, 1⟩ true "" {}).failure = some (.fault (.missingAttribute "NoneType" "value")) := by
  have hlexemes : lexemes (pieces "".toList) = [] := by
    rw [String.toList_empty, pieces]
    rfl
  have hshort : ShortNumerals (pieces "".toList) := by
    rw [← overlong?_eq_none, hlexemes]
    rfl
  have hsteps : 14 * "".length + 4 ≤ (Limits.mk 4 1).steps := by decide
  obtain ⟨v, c, hwords, -, hcut⟩ := words_finish hsteps
  rw [readable_eq hshort] at hwords
  have hcutShort : (Wording.read (Limits.mk 4 1).steps (lexemes (pieces "".toList))).config.host.cutShort = true := by
    rw [hlexemes]
    exact Wording.cutShort_nil (by decide)
  rw [hwords] at hcutShort
  obtain ⟨_, _, hread, -, hvalid⟩ := plain_read hsteps Nat.one_pos hshort hwords
  obtain ⟨_, hverbose⟩ := verbose_cutShort hsteps Nat.one_pos hshort hwords hcutShort
  rw [runProgram_invalid hread (hvalid.trans (hcut hcutShort)), hverbose]
  exact ⟨rfl, rfl⟩

end LispKit.Lisp
