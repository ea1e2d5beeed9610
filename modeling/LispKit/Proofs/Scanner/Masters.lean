import LispKit.Proofs.Pattern.Joined
import LispKit.Proofs.Scanner.Build
import LispKit.Scanner.Scan

/-! The patterns of a state: however its rules are divided among them, the first rule that matches is found. -/

namespace LispKit.Scanner

open List Option

variable {V σ : Type} {ds : Declarations (Handler V σ)} {tokenNames : Registry String String} {flags : Pattern.Flags}

/-- A rule: its name, its pattern, the token it makes, and the handler if it is a routine. -/
structure Rule (V σ : Type) where
  name : String
  pattern : String
  type : String
  handler : Option (Handler V σ)

namespace Rule

/-- What a match of the rule leads to. That the match is left out is read from the whole name. -/
def applied (r : Rule V σ) : Target V σ :=
  match r.handler with
  | some h => .handled r.type h
  | none =>
    match Text.placeOf? Declared.ignoreWord r.name.toList with
    | some (_ + 1) => .ignored
    | _ => .token r.type

def text (r : Rule V σ) : String :=
  Declared.groupText r.name r.pattern

def own (r : Rule V σ) (flags : Pattern.Flags) (position : Nat) (rest : List Char) : Option Pattern.Match :=
  (Pattern.compile r.pattern flags).toOption.bind fun c => c.match? position rest

def found (r : Rule V σ) (flags : Pattern.Flags) (position : Nat) (rest : List Char) :
    Option (Nat × Except Fault (Target V σ)) :=
  (r.own flags position rest).map fun m => (m.length, .ok r.applied)

/-- The pattern of the rule can be read for itself. -/
def Legible (flags : Pattern.Flags) (r : Rule V σ) : Prop :=
  ∃ c, Pattern.compile r.pattern flags = .ok c

/-- The pattern of the rule can be read for itself, bare and as a group. -/
structure Alone (flags : Pattern.Flags) (r : Rule V σ) : Prop where
  name : '>' ∉ r.name.toList
  own : r.Legible flags
  group : ∃ c, Pattern.compile r.text flags = .ok c

structure Ready (ds : Declarations (Handler V σ)) (tokenNames : Registry String String) (flags : Pattern.Flags)
    (r : Rule V σ) : Prop where
  name : '>' ∉ r.name.toList
  target : ∀ n, Build.targetOf ds tokenNames (r.name, n) = some (some (n, r.applied))
  own : ∃ c, Pattern.compile r.pattern flags = .ok c ∧ ∀ e ∈ c.names, ds.get? e.1 = none
  group : ∃ c, Pattern.compile r.text flags = .ok c

end Rule

section Master

lemma lookup_of_mem {α : Type} {l : List (Nat × α)} (hl : (l.map Prod.fst).Nodup) {n : Nat} {a : α} (h : (n, a) ∈ l) :
    l.lookup n = some a := by
  induction l with
  | nil => cases h
  | cons e l ih =>
    obtain ⟨hne, hl⟩ := nodup_cons.mp hl
    rcases mem_cons.mp h with rfl | h
    · rw [lookup_cons_self]
    · have hkey : n ≠ e.1 := by
        rintro rfl
        exact hne (mem_map.mpr ⟨_, h, rfl⟩)
      rw [lookup_cons, beq_false_of_ne hkey]
      exact ih hl h

variable {targets : List (Option (Nat × Target V σ))} {names : List (String × Nat)}

lemma targets_of_mapM (h : names.mapM (Build.targetOf ds tokenNames) = some targets) :
    List.Forall₂ (fun e t => Build.targetOf ds tokenNames e = some t) names targets := by
  induction names generalizing targets with
  | nil =>
    obtain rfl : [] = targets := by simpa using h
    exact .nil
  | cons e names ih =>
    rw [mapM_cons] at h
    obtain ⟨t, ht, h⟩ := bind_eq_some_iff.mp h
    obtain ⟨ts, hts, h⟩ := bind_eq_some_iff.mp h
    obtain rfl := Option.some.inj h
    exact .cons ht (ih hts)

lemma number_targetOf {e : String × Nat} {n : Nat} {t : Target V σ}
    (h : Build.targetOf ds tokenNames e = some (some (n, t))) : n = e.2 := by
  obtain ⟨name, number⟩ := e
  unfold Build.targetOf at h
  dsimp only at h
  split at h
  · cases h
  · cases h
  · obtain ⟨type, -, h⟩ := map_eq_some_iff.mp h
    exact (Prod.mk.inj (Option.some.inj h)).1.symm
  · split at h
    · exact (Prod.mk.inj (Option.some.inj (Option.some.inj h))).1.symm
    · obtain ⟨type, -, h⟩ := map_eq_some_iff.mp h
      exact (Prod.mk.inj (Option.some.inj h)).1.symm

variable {r : Rule V σ} {c : Pattern.Compiled}

lemma lookup_targets (h : names.mapM (Build.targetOf ds tokenNames) = some targets)
    (hsorted : (names.map Prod.snd).Pairwise (· < ·)) (hr : r.Ready ds tokenNames flags) {n : Nat}
    (hn : (r.name, n) ∈ names) : (targets.filterMap id).lookup n = some r.applied := by
  have hall := targets_of_mapM h
  have hsub : ((targets.filterMap id).map Prod.fst).Sublist (names.map Prod.snd) := by
    clear h hsorted hn
    induction hall with
    | nil => exact .slnil
    | cons ht hall ih =>
      rename_i e t names targets
      cases t with
      | none => exact ih.cons _
      | some t =>
        obtain ⟨k, t⟩ := t
        obtain rfl := number_targetOf ht
        exact ih.cons_cons _
  have hmem : (n, r.applied) ∈ targets.filterMap id := by
    clear h hsorted hsub
    induction hall with
    | nil => cases hn
    | cons ht hall ih =>
      rcases mem_cons.mp hn with rfl | hn
      · obtain rfl := Option.some.inj ((hr.target n).symm.trans ht)
        exact mem_cons_self
      · exact mem_filterMap.mpr ((mem_filterMap.mp (ih hn)).imp fun a ha => ⟨mem_cons_of_mem _ ha.1, ha.2⟩)
  exact lookup_of_mem ((hsorted.imp Nat.ne_of_lt).sublist hsub) hmem

open Pattern.Reader in
def Rule.part (r : Rule V σ) (flags : Pattern.Flags) : Part where
  name := r.name.toList
  text := r.pattern.toList
  own := (Pattern.compile r.pattern flags).toOption.getD ⟨.empty, [], false⟩

lemma toList_groupText (name pattern : String) :
    (Declared.groupText name pattern).toList = Pattern.Reader.groupChars name.toList pattern.toList := by
  simp [Declared.groupText, Pattern.Reader.groupChars]

lemma Rule.Alone.part (hr : r.Alone flags) : (r.part flags).Valid flags := by
  obtain ⟨c, hc⟩ := hr.own
  refine ⟨hr.name, ?_, ?_⟩
  · change Pattern.compile r.pattern flags = .ok ((Pattern.compile r.pattern flags).toOption.getD _)
    rw [hc]
    rfl
  · obtain ⟨c', hc'⟩ := hr.group
    rw [Pattern.compile, Rule.text, toList_groupText] at hc'
    exact ⟨c', hc'⟩

lemma Rule.Ready.alone (hr : r.Ready ds tokenNames flags) : r.Alone flags :=
  ⟨hr.name, hr.own.imp fun _ => And.left, hr.group⟩

variable {rules : List (Rule V σ)} {ms : List (Master V σ)} {groups : List String} {m : Master V σ} {fuel : Nat}
  {compile : String → Option Pattern.Compiled}

lemma ignoreCase_compile {text : String} (h : Pattern.compile text flags = .ok c) :
    c.ignoreCase = flags.ignoreCase := by
  obtain ⟨_, -, -, -, hc⟩ := Pattern.Reader.alternatives_of_compile h
  exact hc

lemma own_part (hr : r.Alone flags) (position : Nat) (rest : List Char) :
    r.own flags position rest = (r.part flags).own.pattern.match? flags.ignoreCase position rest := by
  obtain ⟨c, hc⟩ := hr.own
  rw [Rule.own, Rule.part, hc, ← ignoreCase_compile hc]
  rfl

/-- Rules that share a pattern: each has a group of its own, and the first of them that matches is found. -/
lemma compile_rules (hne : rules ≠ []) (hr : ∀ r ∈ rules, r.Alone flags)
    (h : Pattern.compile ("|".intercalate (rules.map Rule.text)) flags = .ok c) :
    ∃ numbers : List Nat, List.Forall₂ (fun r n => (r.name, n) ∈ c.names) rules numbers ∧
      (c.names.map Prod.snd).Pairwise (· < ·) ∧ ∀ position rest, c.match? position rest =
        (rules.zip numbers).findSome? fun e => (e.1.own flags position rest).map fun f => ⟨f.length, some e.2⟩ := by
  have hcase := ignoreCase_compile h
  have hjoined : ("|".intercalate (rules.map Rule.text)).toList =
      Pattern.Reader.joined (rules.map fun r => r.part flags) := by
    rw [String.toList_intercalate, Pattern.Reader.joined, List.map_map, List.map_map]
    congr 2
    funext r
    exact toList_groupText r.name r.pattern
  rw [Pattern.compile, hjoined] at h
  obtain ⟨⟨gs, hpattern, hall⟩, hsorted⟩ := Pattern.Reader.compile_joined (by simpa using hne)
    (by simpa using fun r h => (hr r h).part) h
  have hgs : gs ≠ [] := by
    rintro rfl
    exact hne (by simpa using hall)
  rw [forall₂_map_left_iff] at hall
  refine ⟨gs.map Prod.fst, forall₂_map_right_iff.mpr (hall.imp fun r g h => ?_), hsorted, fun position rest => ?_⟩
  · simpa [Rule.part] using h.2
  · rw [Pattern.Compiled.match?, hpattern, hcase, Pattern.Reader.match?_chain hgs]
    clear hne hgs hpattern h hjoined
    induction hall with
    | nil => rfl
    | cons hg hall ih =>
      obtain ⟨halone, hr⟩ := forall_mem_cons.mp hr
      rw [findSome?_cons, map_cons, zip_cons_cons, findSome?_cons, Pattern.match?_group hg.1, ← own_part halone, ih hr]

lemma compile?_eq_some {text : String} : Pattern.compile? flags text = some c ↔ Pattern.compile text flags = .ok c := by
  unfold Pattern.compile?
  cases Pattern.compile text flags <;> simp [Except.toOption]

lemma of_master? (h : Build.master? ds tokenNames compile groups = some m) :
    m.text = "|".intercalate groups ∧ compile m.text = some m.compiled ∧
      ∃ targets, m.compiled.names.mapM (Build.targetOf ds tokenNames) = some targets ∧ m.targets = targets.filterMap id := by
  obtain ⟨c, hc, h⟩ := bind_eq_some_iff.mp h
  obtain ⟨_, -, h⟩ := bind_eq_some_iff.mp h
  obtain ⟨targets, htargets, h⟩ := bind_eq_some_iff.mp h
  obtain rfl := Option.some.inj h
  exact ⟨rfl, hc, targets, htargets, rfl⟩

lemma firstMatch_master (hne : rules ≠ []) (hr : ∀ r ∈ rules, r.Ready ds tokenNames flags)
    (hm : Build.master? ds tokenNames (Pattern.compile? flags) (rules.map Rule.text) = some m) (position : Nat) (rest : List Char) :
    firstMatch position rest [m] = rules.findSome? fun r => r.found flags position rest := by
  obtain ⟨htext, hcompile, targets, htargets, hmt⟩ := of_master? hm
  rw [htext, compile?_eq_some] at hcompile
  obtain ⟨numbers, hall, hsorted, hmatch⟩ := compile_rules hne (fun r h => (hr r h).alone) hcompile
  have hfirst : firstMatch position rest [m] =
      (m.compiled.match? position rest).map fun f => (f.length, m.target f.lastGroup) := by
    rw [firstMatch]
    cases m.compiled.match? position rest <;> rfl
  rw [hfirst, hmatch]
  clear hne htext hcompile hm hmatch hfirst
  -- The number of a group leads to the rule's target.
  induction hall with
  | nil => rfl
  | cons hmem hall ih =>
    rename_i r n rules numbers
    obtain ⟨hready, hr⟩ := forall_mem_cons.mp hr
    have htarget : m.target (some n) = .ok r.applied := by
      simp only [Master.target, hmt, lookup_targets htargets hsorted hready hmem]
    rw [zip_cons_cons, findSome?_cons, findSome?_cons, Rule.found]
    dsimp only
    cases r.own flags position rest with
    | none => exact ih hr
    | some f =>
      rw [map_some, map_some, map_some]
      dsimp only
      rw [htarget]

lemma firstMatch_append (position : Nat) (rest : List Char) (ms ms' : List (Master V σ)) :
    firstMatch position rest (ms ++ ms') = (firstMatch position rest ms).or (firstMatch position rest ms') := by
  induction ms with
  | nil => rfl
  | cons m ms ih =>
    rw [cons_append, firstMatch, firstMatch]
    cases m.compiled.match? position rest with
    | none => exact ih
    | some f => rfl

/-- How rules are divided among patterns. -/
inductive Divided (ds : Declarations (Handler V σ)) (tokenNames : Registry String String)
    (compile : String → Option Pattern.Compiled) : List String → List (Master V σ) → Prop
  | nil : Divided ds tokenNames compile [] []
  | whole {groups : List String} {m : Master V σ} : groups ≠ [] → Build.master? ds tokenNames compile groups = some m →
      Divided ds tokenNames compile groups [m]
  | halves {left right : List String} {ms ms' : List (Master V σ)} : Divided ds tokenNames compile left ms →
      Divided ds tokenNames compile right ms' → Divided ds tokenNames compile (left ++ right) (ms ++ ms')

lemma divided_of_masters (h : Build.masters ds tokenNames compile fuel groups = .ok ms) :
    Divided ds tokenNames compile groups ms := by
  fun_induction Build.masters ds tokenNames compile fuel groups generalizing ms with
  | case1 => exact Except.ok.inj h ▸ .nil
  | case2 _ groups hne m hm => exact Except.ok.inj h ▸ .whole hne hm
  | case3 => cases h
  | case4 => cases h
  | case5 groups =>
    rename_i half ihleft ihright
    obtain ⟨left, hleft, h⟩ := Pattern.Reader.bind_eq_ok h
    obtain ⟨right, hright, h⟩ := Pattern.Reader.bind_eq_ok h
    rw [← Except.ok.inj h, ← take_append_drop half groups]
    exact .halves (ihleft hleft) (ihright hright)

lemma firstMatch_masters (hr : ∀ r ∈ rules, r.Ready ds tokenNames flags)
    (h : Build.masters ds tokenNames (Pattern.compile? flags) fuel (rules.map Rule.text) = .ok ms) (position : Nat) (rest : List Char) :
    firstMatch position rest ms = rules.findSome? fun r => r.found flags position rest := by
  have hdivided := divided_of_masters h
  clear h
  generalize htexts : rules.map Rule.text = groups at hdivided
  induction hdivided generalizing rules with
  | nil =>
    rw [map_eq_nil_iff.mp htexts]
    rfl
  | whole hne hm =>
    subst htexts
    exact firstMatch_master (by simpa using hne) hr hm position rest
  | halves _ _ hleft hright =>
    obtain ⟨rules, rules', rfl, rfl, rfl⟩ := map_eq_append_iff.mp htexts
    obtain ⟨hr, hr'⟩ := forall_mem_append.mp hr
    rw [firstMatch_append, hleft hr rfl, hright hr' rfl, findSome?_append]

end Master

end LispKit.Scanner
