import LispKit.Proofs.Lisp.Bare
import LispKit.Proofs.Lisp.Faults
import LispKit.Proofs.Lisp.Output

/-! Sequential composition: a text after another one does what it would do on the store that the first one leaves. -/

namespace LispKit.Lisp

open Lexeme Reading List Store Option

section Joining

variable {b : Char}

lemma longestWithin_append {u v : List Char} {n : Nat} (hn : n ≤ u.length) :
    longestWithin (u ++ v) n = longestWithin u n := by
  induction n with
  | zero => rfl
  | succ n ih => rw [longestWithin, longestWithin, ih (by omega), take_append_of_le_length hn]

lemma longest_append_blank (hb : isBlank b = true) (u v : List Char) : longest (u ++ b :: v) = longest u := by
  have hlong : ∀ k, longestWithin (u ++ b :: v) (u.length + k) = longest u := by
    intro k
    induction k with
    | zero => exact longestWithin_append (Nat.le_refl _)
    | succ k ih =>
      have hmem : b ∈ (u ++ b :: v).take (u.length + k + 1) := by
        rw [take_append, mem_append]
        right
        have hsub : u.length + k + 1 - u.length = k + 1 := by omega
        rw [hsub, take_succ_cons]
        exact mem_cons_self
      have hnot : ¬ isLexeme ((u ++ b :: v).take (u.length + k + 1)) = true := by
        intro hl
        have := isBlank_eq_false_of_mem hl hmem
        rw [hb] at this
        cases this
      rw [← Nat.add_assoc, longestWithin, if_neg hnot, ih]
  have := hlong (v.length + 1)
  rwa [longest, length_append, length_cons]

lemma pieces_append (hb : isBlank b = true) (u v : List Char) : pieces (u ++ b :: v) = pieces u ++ .blank b :: pieces v := by
  induction u using pieces.induct with
  | case1 =>
    have hnil : pieces [] = [] := by rw [pieces]
    rw [hnil, nil_append, nil_append, pieces, if_pos hb]
  | case2 c rest hc ih => rw [cons_append, pieces, if_pos hc, pieces, if_pos hc, ih, cons_append]
  | case3 c rest hc w hw ih =>
    have hlong := longest_append_blank hb (c :: rest) v
    obtain ⟨-, hne, happend⟩ := longest_eq_some hw
    have hlength : w.length - 1 ≤ rest.length := by
      have := congrArg List.length happend
      simp only [length_append, length_drop, length_cons] at this
      omega
    rw [cons_append] at hlong
    rw [cons_append, pieces, if_neg hc, hlong, hw, pieces, if_neg hc, hw]
    simp only [drop_append_of_le_length hlength, ih, cons_append]
  | case4 c rest hc hn ih =>
    have hlong := longest_append_blank hb (c :: rest) v
    rw [cons_append] at hlong
    rw [cons_append, pieces, if_neg hc, hlong, hn, pieces, if_neg hc, hn]
    simp only [ih, cons_append]

lemma lexemes_append (ps qs : List Piece) : lexemes (ps ++ qs) = lexemes ps ++ lexemes qs :=
  filterMap_append

end Joining

section Statements

variable {memoize : Bool} {n m : Node} {s t : Store} {r : Except Fault Value}

lemma settles_statements : Settles memoize (.branch .statements [n, m]) s r t ↔
    (∃ v u r', Settles memoize n s (.ok v) u ∧ Settles memoize m u r' t ∧ r = r'.map fun _ => .nothing) ∨
      ∃ e, r = .error e ∧ Settles memoize n s (.error e) t := by
  have hstep : Eval.step memoize (.branch .statements [n, m]) s =
      .visit n s fun _ u => .visit m u fun _ w => .done (.ok .nothing) w := rfl
  rw [settles_iff, hstep, Course.runs_visit]
  simp only [Course.runs_visit, Course.runs_done]
  constructor
  · rintro ⟨-, ⟨v, u, hn, ⟨v', w, hm, rfl, rfl⟩ | ⟨e, rfl, hm⟩⟩ | ⟨e, rfl, hn⟩⟩
    · exact .inl ⟨v, u, .ok v', hn, hm, rfl⟩
    · exact .inl ⟨v, u, .error e, hn, hm, rfl⟩
    · exact .inr ⟨e, rfl, hn⟩
  · rintro (⟨v, u, r', hn, hm, rfl⟩ | ⟨e, rfl, hn⟩)
    · cases r' with
      | ok v' => exact ⟨by simp [Except.map], .inl ⟨v, u, hn, .inl ⟨v', t, hm, rfl, rfl⟩⟩⟩
      | error e => exact ⟨hm.1, .inl ⟨v, u, hn, .inr ⟨e, rfl, hm⟩⟩⟩
    · exact ⟨hn.1, .inr ⟨e, rfl, hn⟩⟩

lemma settles_append {ns ms : List Node} : Settles memoize (.program n (ns ++ m :: ms)) s r t ↔
    (∃ v u r', Settles memoize (.program n ns) s (.ok v) u ∧ Settles memoize (.program m ms) u r' t ∧
      r = r'.map fun _ => .nothing) ∨ ∃ e, r = .error e ∧ Settles memoize (.program n ns) s (.error e) t := by
  induction ns generalizing n s r with
  | nil => exact settles_statements
  | cons k ks ih =>
    change Settles memoize (.branch .statements [n, .program k (ks ++ m :: ms)]) s r t ↔
      (∃ v u r', Settles memoize (.branch .statements [n, .program k ks]) s (.ok v) u ∧ _) ∨
        ∃ e, r = .error e ∧ Settles memoize (.branch .statements [n, .program k ks]) s (.error e) t
    simp only [settles_statements, ih]
    constructor
    · rintro (⟨v, u, r', hn, ⟨v', u', r'', hk, hm, rfl⟩ | ⟨e, rfl, hk⟩, rfl⟩ | ⟨e, rfl, hn⟩)
      · refine .inl ⟨.nothing, u', r'', .inl ⟨v, u, .ok v', hn, hk, rfl⟩, hm, ?_⟩
        cases r'' <;> rfl
      · exact .inr ⟨e, rfl, .inl ⟨v, u, .error e, hn, hk, rfl⟩⟩
      · exact .inr ⟨e, rfl, .inr ⟨e, rfl, hn⟩⟩
    · rintro (⟨v, u, r', ⟨v', u', r'', hn, hk, hr⟩ | ⟨e, he, _⟩, hm, rfl⟩ | ⟨e, rfl, ⟨v, u, r', hn, hk, hr⟩ | ⟨_, he, hn⟩⟩)
      · cases r'' with
        | error e => cases hr
        | ok w =>
          refine .inl ⟨v', u', r'.map fun _ => .nothing, hn, .inl ⟨w, u, r', hk, hm, rfl⟩, ?_⟩
          cases r' <;> rfl
      · cases he
      · cases r' with
        | ok w => cases hr
        | error e' =>
          cases hr
          exact .inl ⟨v, u, .error e, hn, .inr ⟨e, rfl, hk⟩, rfl⟩
      · cases he
        exact .inr ⟨e, rfl, hn⟩

lemma Settles.failing {e : Fault} {ns : List Node} (h : Settles memoize (.program n ns) s (.error e) t) :
    ∃ before m after u, n :: ns = before ++ m :: after ∧ Settles memoize m u (.error e) t ∧
      (before = [] ∧ u = s ∨ ∃ k ks v, before = k :: ks ∧ Settles memoize (.program k ks) s (.ok v) u) := by
  induction ns generalizing n s with
  | nil => exact ⟨[], n, [], s, rfl, h, .inl ⟨rfl, rfl⟩⟩
  | cons k ks ih =>
    obtain ⟨v, u, r', hn, hk, hr⟩ | ⟨_, he, hn⟩ := settles_statements.mp h
    · cases r' with
      | ok w => cases hr
      | error e' =>
        cases hr
        obtain ⟨before, m, after, u', hsplit, hm, hcase⟩ := ih hk
        refine ⟨n :: before, m, after, u', by rw [hsplit]; rfl, hm, .inr ⟨n, before, ?_⟩⟩
        obtain ⟨rfl, rfl⟩ | ⟨k', ks', v', rfl, hbefore⟩ := hcase
        · exact ⟨v, rfl, hn⟩
        · exact ⟨.nothing, rfl, settles_statements.mpr (.inl ⟨v, u, .ok v', hn, hbefore, rfl⟩)⟩
    · cases he
      exact ⟨[], n, k :: ks, s, rfl, hn, .inl ⟨rfl, rfl⟩⟩

end Statements

section Texts

variable {p q : Program} {source : String} {limits : Limits}

def Valid (source : String) : Prop :=
  (∀ c, .illegal c ∉ pieces source.toList) ∧ ShortNumerals (pieces source.toList) ∧
    ∃ limits v c, 14 * source.length + 4 ≤ limits.steps ∧ 0 < limits.depth ∧
      read limits tables {} scanner {} source = .finished v c ∧ c.host.desk.valid = true

def Spells (source : String) (p : Program) : Prop :=
  lexemes (pieces source.toList) = p.lexemes ∧ ∀ c, .illegal c ∉ pieces source.toList

lemma Spells.short (h : Spells source p) : ShortNumerals (pieces source.toList) := by
  intro w hw
  rw [h.1] at hw
  exact p.short_lexemes w hw

lemma Spells.valid (h : Spells source p) : Valid source := by
  have hsteps : 14 * source.length + 4 ≤ (Limits.mk (14 * source.length + 4) 1).steps := Nat.le_refl _
  obtain ⟨v, n, c, hread, -, -, hvalid⟩ := read_program (d := {}) hsteps Nat.one_pos h.short rfl h.1.symm
  exact ⟨h.2, h.short, _, v, c, hsteps, Nat.one_pos, hread, hvalid⟩

def Program.append (p q : Program) : Program :=
  ⟨p.first, p.rest ++ q.statements⟩

lemma Spells.append {source' : String} (h : Spells source p) (h' : Spells source' q) :
    Spells (source ++ "\n" ++ source') (p.append q) := by
  have htext : (source ++ "\n" ++ source').toList = source.toList ++ '\n' :: source'.toList := by
    simp
  have hpieces := pieces_append (b := '\n') rfl source.toList source'.toList
  refine ⟨?_, fun c hc => ?_⟩
  · rw [htext, hpieces, lexemes_append, h.1]
    change p.lexemes ++ lexemes (pieces source'.toList) = _
    rw [h'.1]
    simp [Program.lexemes, Program.append, Program.statements]
  · rw [htext, hpieces, mem_append, mem_cons] at hc
    rcases hc with hc | hc | hc
    · exact h.2 c hc
    · cases hc
    · exact h'.2 c hc

def Program.text (p : Program) : String :=
  String.ofList (spaced p.lexemes)

lemma Program.spells_text (p : Program) : Spells p.text p := by
  have hrendered : Rendered p.lexemes p.text.toList := by
    rw [Program.text, String.toList_ofList]
    exact rendered_spaced _
  exact lexemes_rendered hrendered p.isLexeme_of_mem

lemma Program.bare_node (p : Program) : p.node.bare = p.node := by
  have hsteps : 14 * p.text.length + 4 ≤ (Limits.mk (14 * p.text.length + 4) 1).steps := Nat.le_refl _
  obtain ⟨v, n, c, -, -, hn, -⟩ :=
    read_program (d := {}) hsteps Nat.one_pos p.spells_text.short rfl p.spells_text.1.symm
  rw [← hn, Node.bare_bare]

end Texts

section Running

variable {p q : Program} {source : String} {limits : Limits} {s t u : Store} {r : Except Fault Value}

def failureOf : Except Fault Value → Option Scanner.ScanError
  | .ok _ => none
  | .error f => if Running.isTypeFault f then none else some (.fault f)

def closing : Except Fault Value → String
  | .ok _ => ""
  | .error f => if Running.isTypeFault f then "Type error!\n" else ""

lemma failureOf_map (r : Except Fault Value) (v : Value) : failureOf (r.map fun _ => v) = failureOf r := by
  cases r <;> rfl

lemma closing_map (r : Except Fault Value) (v : Value) : closing (r.map fun _ => v) = closing r := by
  cases r <;> rfl

def Running.close : Except Fault Value → Running Unit
  | .ok _ => pure ()
  | .error f => if isTypeFault f then print "Type error!" else fail f

lemma Running.run_evaluate (limits : Limits) (n : Node) (run : Run) {r : Except Fault Value} {t : Store}
    (he : Lisp.evaluate true limits.depth n { run.store with out := "" } = (r, t)) :
    (Running.evaluate limits (some n)).run.run run =
      (close r).run.run { run with store := t, desk := { run.desk with out := run.desk.out ++ t.out } } := by
  change (close (Lisp.evaluate true limits.depth n { run.store with out := "" }).1).run.run { run with
    store := (Lisp.evaluate true limits.depth n { run.store with out := "" }).2
    desk := { run.desk with
      out := run.desk.out ++ (Lisp.evaluate true limits.depth n { run.store with out := "" }).2.out } } = _
  rw [he]

lemma Spells.runProgram (h : Spells source p) (hsteps : 14 * source.length + 4 ≤ limits.steps)
    (hdepth : 0 < limits.depth) (s : Store) {r : Except Fault Value}
    (he : evaluate true limits.depth p.node { s with out := "" }.bare = (r, u)) :
    ∃ run, runProgram limits false source s = ⟨failureOf r, run⟩ ∧ run.desk.out = u.out ++ closing r ∧ run.store.bare = u := by
  obtain ⟨v, n, c, hread, htree, hn, hvalid⟩ := read_program (d := {}) hsteps hdepth h.short rfl h.1.symm
  have hout : c.host.desk.out = "" := by
    obtain ⟨v', c', hread', -, hout, -⟩ := read_finishes (d := {}) hsteps hdepth h.short rfl
    rw [hread] at hread'
    injection hread' with _ hc
    rw [hc, hout, reported_of_legal h.2]
  rw [← hn, ← seen_empty, evaluate_seen, Prod.mk.injEq] at he
  obtain ⟨hr, hu⟩ := he
  rw [seen_empty] at hu
  have hevaluate : evaluate true limits.depth n { s with out := "" } = (r, (evaluate true limits.depth n { s with out := "" }).2) :=
    Prod.ext hr rfl
  rw [runProgram_eq hread, hvalid, htree, if_pos rfl, Running.run_evaluate limits n _ hevaluate]
  generalize (evaluate true limits.depth n { s with out := "" }).2 = w at hu
  subst hu
  cases r with
  | ok x =>
    refine ⟨_, rfl, ?_, rfl⟩
    change c.host.desk.out ++ w.out = w.out ++ ""
    rw [hout, String.empty_append, String.append_empty]
  | error f =>
    by_cases hf : Running.isTypeFault f = true
    · simp only [Running.close, hf, if_true, failureOf, closing]
      refine ⟨_, rfl, ?_, rfl⟩
      change c.host.desk.out ++ w.out ++ "Type error!" ++ "\n" = w.out ++ "Type error!\n"
      rw [hout, String.empty_append, String.append_assoc]
      rfl
    · simp only [Running.close, hf, failureOf, closing]
      refine ⟨_, rfl, ?_, rfl⟩
      change c.host.desk.out ++ w.out = w.out ++ ""
      rw [hout, String.empty_append, String.append_empty]

/-- What a run comes to if nothing bounds its depth: how it fails, what has been printed, and what is left in the
store, up to the numbers of nodes. -/
def Concludes (source : String) (s : Store) (failure : Option Scanner.ScanError) (out : String) (t : Store) : Prop :=
  failure ≠ some (.fault .tooDeep) ∧ ∃ depth, ∀ limits : Limits, 14 * source.length + 4 ≤ limits.steps →
    depth ≤ limits.depth → ∃ run, runProgram limits false source s = ⟨failure, run⟩ ∧ run.desk.out = out ∧
      run.store.bare = t.bare

/-- All of the source is executed, and nothing is printed but by its statements. -/
def Completes (source : String) (s t : Store) : Prop :=
  Concludes source s none t.out t

def Mistypes (source : String) (s t : Store) : Prop :=
  Concludes source s none (t.out ++ "Type error!\n") t

lemma Spells.concludes_iff (h : Spells source p) {failure : Option Scanner.ScanError} {out : String} :
    Concludes source s failure out t ↔ ∃ r, Settles true p.node { s with out := "" }.bare r t.bare ∧
      failureOf r = failure ∧ t.out ++ closing r = out := by
  constructor
  · rintro ⟨hdeep, depth, hrun⟩
    have hsteps : 14 * source.length + 4 ≤ (Limits.mk (14 * source.length + 4) (depth + 1)).steps := Nat.le_refl _
    obtain ⟨run, hrun, hout, hstore⟩ := hrun _ hsteps (Nat.le_succ _)
    obtain ⟨r, u, he⟩ : ∃ r u, evaluate true (depth + 1) p.node { s with out := "" }.bare = (r, u) := ⟨_, _, rfl⟩
    obtain ⟨run', hrun', hout', hstore'⟩ := h.runProgram hsteps (Nat.succ_pos depth) s he
    rw [hrun] at hrun'
    obtain ⟨rfl, rfl⟩ := Outcome.mk.inj hrun'
    obtain rfl : t.bare = u := hstore.symm.trans hstore'
    refine ⟨r, ⟨fun hr => ?_, depth + 1, he⟩, rfl, hout'.symm.trans hout⟩
    rw [hr] at hdeep
    exact hdeep rfl
  · rintro ⟨r, ⟨hr, d, hd⟩, rfl, rfl⟩
    refine ⟨?_, d + 1, fun limits hsteps hdepth => ?_⟩
    · cases r with
      | ok v => simp [failureOf]
      | error f =>
        rw [failureOf]
        split
        · simp
        · simpa using hr
    · exact h.runProgram hsteps (by omega) s (evaluate_mono (by omega) hd hr)

lemma Spells.completes_iff (h : Spells source p) :
    Completes source s t ↔ ∃ v, Settles true p.node { s with out := "" }.bare (.ok v) t.bare := by
  rw [Completes, h.concludes_iff]
  constructor
  · rintro ⟨r, hr, hfailure, hout⟩
    cases r with
    | ok v => exact ⟨v, hr⟩
    | error f =>
      rw [failureOf] at hfailure
      rw [closing] at hout
      split at hfailure
      · rename_i hf
        rw [if_pos hf] at hout
        exact absurd (String.append_eq_left_iff.mp hout) (by decide)
      · cases hfailure
  · rintro ⟨v, hr⟩
    exact ⟨_, hr, rfl, String.append_empty⟩

lemma Spells.mistypes_iff (h : Spells source p) : Mistypes source s t ↔
    ∃ f, Running.isTypeFault f = true ∧ Settles true p.node { s with out := "" }.bare (.error f) t.bare := by
  rw [Mistypes, h.concludes_iff]
  constructor
  · rintro ⟨r, hr, hfailure, hout⟩
    cases r with
    | ok v => exact absurd ((String.append_right_inj _).mp hout) (by simp [closing])
    | error f =>
      refine ⟨f, ?_, hr⟩
      by_contra hf
      rw [failureOf, if_neg hf] at hfailure
      cases hfailure
  · rintro ⟨f, hf, hr⟩
    exact ⟨_, hr, by rw [failureOf, if_pos hf], by rw [closing, if_pos hf]⟩

lemma Store.seen_bare (o : String) (s : Store) : s.bare.seen o = (s.after o).bare := by
  rw [Store.seen, Store.bare_bare]
  rfl

lemma Store.seen_bare_reset (s : Store) : { s with out := "" }.bare.seen s.out = s.bare := by
  rw [seen_bare]
  exact congrArg Store.bare (congrArg (fun out => { s with out := out }) String.append_empty)

lemma Program.node_append (p q : Program) : (p.append q).node =
    .program p.first.node (p.rest.map Statement.node ++ q.first.node :: q.rest.map Statement.node) := by
  simp [Program.node, Program.append, Program.statements]

lemma Program.settles_after (p : Program) (h : Settles true p.node { s with out := "" }.bare r u) :
    Settles true p.node s.bare r (u.seen s.out) := by
  have hseen := h.seen s.out
  rwa [p.bare_node, seen_bare_reset] at hseen

lemma Program.exists_bare (p : Program) (h : Settles true p.node s.bare r u) : ∃ w : Store, u = w.bare := by
  rw [← p.bare_node, ← seen_empty] at h
  obtain ⟨w, -, rfl⟩ := h.of_seen
  exact ⟨w, seen_empty w⟩

lemma Program.of_settles_after (p : Program) (h : Settles true p.node s.bare r u) :
    ∃ w : Store, Settles true p.node { s with out := "" }.bare r w.bare ∧ u = (w.after s.out).bare := by
  rw [← p.bare_node, ← seen_bare_reset] at h
  obtain ⟨w, hw, rfl⟩ := h.of_seen
  obtain ⟨x, rfl⟩ := p.exists_bare hw
  exact ⟨x, hw, seen_bare _ _⟩

end Running

section Proper

lemma Store.Proper.bare {s : Store} (h : s.Proper) : s.bare.Proper := by
  refine ⟨fun i f c hf hc => ?_, fun e he => ?_⟩
  · rw [frame?_bare] at hf
    obtain ⟨g, hg, rfl⟩ := map_eq_some_iff.mp hf
    obtain ⟨c', hc', rfl⟩ := map_eq_some_iff.mp hc
    exact (h.function i g c' hg hc').of_bare c'.bare_bare
  · have := h.place e he
    simpa [Store.bare] using this

lemma Store.Proper.of_bare {s : Store} (h : s.bare.Proper) : s.Proper := by
  refine ⟨fun i f c hf hc => ?_, fun e he => ?_⟩
  · have hf' : s.bare.frame? i = some f.bare := by rw [frame?_bare, hf, map_some]
    have hc' : f.bare.function = some c.bare := by rw [Frame.bare, hc, map_some]
    exact (h.function i f.bare c.bare hf' hc').of_bare c.bare_bare.symm
  · have := h.place e he
    simpa [Store.bare] using this

end Proper

section Composition

variable {p q : String} {P Q : Program} {s s' t : Store} {failure : Option Scanner.ScanError} {out : String}

lemma Completes.append (hP : Spells p P) (hQ : Spells q Q) (h : Completes p s s') (h' : Concludes q s' failure out t) :
    Concludes (p ++ "\n" ++ q) s failure (s'.out ++ out) (t.after s'.out) := by
  obtain ⟨v, hv⟩ := hP.completes_iff.mp h
  obtain ⟨r, hr, rfl, rfl⟩ := hQ.concludes_iff.mp h'
  have hafter := Q.settles_after hr
  rw [seen_bare] at hafter
  refine (hP.append hQ).concludes_iff.mpr ⟨r.map fun _ => .nothing, ?_, failureOf_map r _, ?_⟩
  · rw [Program.node_append]
    exact settles_append.mpr (.inl ⟨v, s'.bare, r, hv, hafter, rfl⟩)
  · rw [closing_map]
    exact String.append_assoc

lemma Concludes.proper (hP : Spells p P) (hs : s.Proper) (h : Concludes p s failure out t) : t.Proper := by
  obtain ⟨r, ⟨-, d, hd⟩, -, -⟩ := hP.concludes_iff.mp h
  have hreset : Store.Proper { s with out := "" } := ⟨hs.function, hs.place⟩
  have hend := hreset.bare.evaluate ⟨_, P.tree_node⟩ true d
  rw [hd] at hend
  exact hend.of_bare

lemma Mistypes.statement (hP : Spells p P) (hs : s.Proper) (h : Mistypes p s t) :
    ∃ (before after : List Statement) (x : Statement) (u : Store), P.statements = before ++ x :: after ∧
      (before = [] ∧ u = { s with out := "" } ∨ ∃ b : Program, b.statements = before ∧ Completes b.text s u) ∧
      t.out = u.out ∧ Mistypes (Program.text ⟨x, []⟩) u { t with out := "" } := by
  obtain ⟨f, hf, hr⟩ := hP.mistypes_iff.mp h
  obtain ⟨before, m, after, u, hsplit, hm, hbefore⟩ := hr.failing
  have hnodes : P.statements.map Statement.node = before ++ m :: after := hsplit
  obtain ⟨before, rest, hstatements, rfl, hrest⟩ := map_eq_append_iff.mp hnodes
  obtain ⟨x, after, rfl, rfl, rfl⟩ := map_eq_cons_iff.mp hrest
  -- The store before the failing statement is that of a run of the statements before it.
  obtain ⟨w, hw, hproper, hrun⟩ : ∃ w : Store, u = w.bare ∧ w.Proper ∧
      (before = [] ∧ w = { s with out := "" } ∨ ∃ b : Program, b.statements = before ∧ Completes b.text s w) := by
    obtain ⟨hnil, rfl⟩ | ⟨k, ks, v, hcons, hk⟩ := hbefore
    · refine ⟨_, rfl, ⟨hs.function, hs.place⟩, .inl ⟨map_eq_nil_iff.mp hnil, rfl⟩⟩
    · obtain ⟨y, ys, rfl, rfl, rfl⟩ := map_eq_cons_iff.mp hcons
      let b : Program := ⟨y, ys⟩
      have hb : Settles true b.node { s with out := "" }.bare (.ok v) u := hk
      obtain ⟨w, rfl⟩ := b.exists_bare hb
      have hrun := b.spells_text.completes_iff.mpr ⟨v, hb⟩
      exact ⟨w, rfl, Concludes.proper b.spells_text hs hrun, .inr ⟨b, rfl, hrun⟩⟩
  subst hw
  let px : Program := ⟨x, []⟩
  obtain ⟨z, hz, ht⟩ := px.of_settles_after (s := w) hm
  have hout : z.out = "" := by
    have hreset : Store.Proper { w with out := "" } := ⟨hproper.function, hproper.place⟩
    exact hz.out_eq_of_error x.tree_node hreset.bare
  have hreset : z.bare = { t with out := "" }.bare := by
    have heq := congrArg (fun u : Store => { u with out := "" }) ht
    have hself : { z with out := "" } = z := by rw [← hout]
    rw [← hself]
    exact heq.symm
  refine ⟨before, after, x, w, hstatements, hrun, ?_, px.spells_text.mistypes_iff.mpr ⟨f, hf, hreset ▸ hz⟩⟩
  have : t.out = w.out ++ z.out := congrArg Store.out ht
  rw [this, hout, String.append_empty]

end Composition

lemma spells_successor : Spells successorSource successorProgram :=
  lexemes_rendered rendered_successor successorProgram.isLexeme_of_mem

end LispKit.Lisp
