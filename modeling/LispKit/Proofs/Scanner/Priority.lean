import LispKit.Proofs.Scanner.Fresh
import LispKit.Proofs.Scanner.Masters
import LispKit.Proofs.Scanner.Read

/-! Priority: which rule of a state fires, in terms of the declarations alone. -/

namespace LispKit.Scanner

open List Option

variable {V σ : Type}

section Sorting

variable {α : Type} {le : α → α → Bool}

lemma sorted_eq (l : List α) : sorted le l = l.insertionSort (le · · = true) := by
  have hinsert : ∀ x l, insertSorted le x l = orderedInsert (le · · = true) x l := by
    intro x l
    induction l with
    | nil => rfl
    | cons y l ih => rw [insertSorted, orderedInsert, ih]
  induction l with
  | nil => rfl
  | cons x l ih => rw [sorted, ih, hinsert, insertionSort_cons]

lemma perm_sorted (l : List α) : (sorted le l).Perm l :=
  sorted_eq l ▸ perm_insertionSort _ l

lemma pairwise_sorted (htotal : ∀ a b, le a b = true ∨ le b a = true)
    (htrans : ∀ a b c, le a b = true → le b c = true → le a c = true) (l : List α) : (sorted le l).Pairwise (le · ·) := by
  have : Std.Total (le · · = true) := ⟨htotal⟩
  have : IsTrans α (le · · = true) := ⟨htrans⟩
  exact sorted_eq l ▸ pairwise_insertionSort _ l

end Sorting

section Rules

variable (ds : Declarations (Handler V σ))

def declaredStates : List (String × StateKind) :=
  (initialState, .inclusive) :: (Declared.stateItems (ds.value? "states")).filterMap Declared.stateEntry?

def stateNames : List String :=
  (declaredStates ds).map Prod.fst

def tokenOf (name : String) : String :=
  match RuleName.read name (stateNames ds) with
  | .ok parts => parts.token
  | .error _ => ""

def routinesOf (state : String) : List (String × Routine (Handler V σ)) :=
  (Declared.ruleAttributes ds).flatMap (Declared.routinesIn (stateNames ds) state)

def textsOf (state : String) : List (String × String) :=
  (Declared.ruleAttributes ds).flatMap (Declared.textsIn (stateNames ds) state)

def routineRule (r : String × Routine (Handler V σ)) : Rule V σ :=
  ⟨r.1, r.2.doc.getD "", tokenOf ds r.1, some r.2.behaviour⟩

def textRule (t : String × String) : Rule V σ :=
  ⟨t.1, t.2, tokenOf ds t.1, none⟩

def ownRules (state : String) : List (Rule V σ) :=
  (sorted (fun a b => a.2.line ≤ b.2.line) (routinesOf ds state)).map (routineRule ds) ++
    (sorted (fun a b => b.2.length ≤ a.2.length) (textsOf ds state)).map (textRule ds)

def rulesIn (state : String) : List (Rule V σ) :=
  ownRules ds state ++
    if state ≠ initialState ∧ (state, .inclusive) ∈ declaredStates ds then ownRules ds initialState else []

/-- The routines of a state by increasing lines, and then its texts by decreasing lengths. -/
def InOrder (state : String) (rules : List (Rule V σ)) : Prop :=
  ∃ (routines : List (String × Routine (Handler V σ))) (texts : List (String × String)),
    rules = routines.map (routineRule ds) ++ texts.map (textRule ds) ∧
    routines.Perm (routinesOf ds state) ∧ routines.Pairwise (fun a b => a.2.line ≤ b.2.line) ∧
    texts.Perm (textsOf ds state) ∧ texts.Pairwise fun a b => b.2.length ≤ a.2.length

lemma inOrder_ownRules (state : String) : InOrder ds state (ownRules ds state) := by
  refine ⟨_, _, rfl, perm_sorted _, ?_, perm_sorted _, ?_⟩
  · refine (pairwise_sorted ?_ ?_ _).imp fun h => of_decide_eq_true h
    · intro a b
      simpa using Int.le_total a.2.line b.2.line
    · intro a b c
      simpa using Int.le_trans
  · refine (pairwise_sorted ?_ ?_ _).imp fun h => of_decide_eq_true h
    · intro a b
      simpa using Nat.le_total b.2.length a.2.length
    · intro a b c
      simpa using fun h h' => Nat.le_trans h' h

end Rules

section Names

def Rule.declared (r : Rule V σ) : Target V σ :=
  match r.handler with
  | some h => .handled r.type h
  | none => if Declared.ignoreWord.isPrefixOf r.type.toList then .ignored else .token r.type

/-- The word stands in the name of a text exactly if its token begins with it. -/
def Rule.Clear (r : Rule V σ) : Prop :=
  r.handler.isSome = true ∨
    ((∃ n, Text.placeOf? Declared.ignoreWord r.name.toList = some (n + 1)) ↔ Declared.ignoreWord.isPrefixOf r.type.toList = true)

lemma applied_eq_declared_iff (r : Rule V σ) : r.applied = r.declared ↔ r.Clear := by
  rw [Rule.applied, Rule.declared, Rule.Clear]
  cases r.handler with
  | some h => simp
  | none =>
    rcases Text.placeOf? Declared.ignoreWord r.name.toList with _ | _ | n <;>
      cases Declared.ignoreWord.isPrefixOf r.type.toList <;> simp

end Names

section Ready

variable {ds : Declarations (Handler V σ)} {opts : BuildOptions} {built : Built V σ} {d : Declared V σ}
  {all : List (String × List (Master V σ))} {state : String} {r : Rule V σ}

lemma lookup_attribute (hnodup : (ds.attributes.map Prod.fst).Nodup) {name : String} {a : Attribute (Handler V σ)}
    (h : (name, a) ∈ ds.attributes) : ds.get? name = some a := by
  rw [Declarations.get?]
  generalize ds.attributes = l at hnodup h
  induction l with
  | nil => cases h
  | cons e l ih =>
    obtain ⟨hne, hl⟩ := nodup_cons.mp hnodup
    rcases mem_cons.mp h with rfl | h
    · exact lookup_cons_self
    · have hkey : name ≠ e.1 := by
        rintro rfl
        exact hne (mem_map.mpr ⟨_, h, rfl⟩)
      rw [lookup_cons, beq_false_of_ne hkey]
      exact ih hl h

lemma stateNames_eq (hd : Declared.Reads ds d) : d.states.keys = stateNames ds := by
  rw [Registry.keys, hd.states]
  rfl

lemma ruleTexts_eq (hd : Declared.Reads ds d) (state : String) :
    Build.ruleTexts d state = (ownRules ds state).map fun r => (r.name, r.pattern) := by
  rw [Build.ruleTexts, hd.routines, hd.texts, stateNames_eq hd, ownRules, map_append, List.map_map, List.map_map]
  congr 1
  exact (map_id _).symm

lemma mem_routinesOf {r : String × Routine (Handler V σ)} (h : r ∈ routinesOf ds state) :
    (r.1, .routine r.2) ∈ Declared.ruleAttributes ds := by
  obtain ⟨⟨name, a⟩, ha, h⟩ := mem_flatMap.mp h
  unfold Declared.routinesIn at h
  split at h
  · rename_i parts r' hparts hr'
    split at h
    · cases h
    · obtain rfl := eq_of_mem_replicate h
      dsimp only at hr'
      subst hr'
      exact ha
  · cases h

lemma mem_textsOf {t : String × String} (h : t ∈ textsOf ds state) :
    (t.1, .value (.text t.2)) ∈ Declared.ruleAttributes ds := by
  obtain ⟨⟨name, a⟩, ha, h⟩ := mem_flatMap.mp h
  unfold Declared.textsIn at h
  split at h
  · rename_i parts t' hparts ht'
    split at h
    · cases h
    · obtain rfl := eq_of_mem_replicate h
      dsimp only at ht'
      subst ht'
      exact ha
  · cases h

structure WellNamed (ds : Declarations (Handler V σ)) : Prop where
  nodup : (ds.attributes.map Prod.fst).Nodup
  names : ∀ a ∈ ds.attributes, '>' ∉ a.1.toList

/-- The pattern of the rule can be read for itself, and its inner groups are not named like attributes. -/
def Rule.Readable (ds : Declarations (Handler V σ)) (flags : Pattern.Flags) (r : Rule V σ) : Prop :=
  ∃ c, Pattern.compile r.pattern flags = .ok c ∧ ∀ e ∈ c.names, ds.get? e.1 = none

lemma passes_of_parts (hp : Parts ds opts built d all) (hs : state ∈ stateNames ds)
    (hr : r ∈ ownRules ds state) : Declared.Passes opts.flags r.name r.pattern := by
  obtain ⟨hfailed, hpasses⟩ := Declared.of_check hp.check
  have hd := Declared.reads_of_read hp.read hfailed
  refine hpasses state (stateNames_eq hd ▸ hs) (r.name, r.pattern) ?_
  rw [ruleTexts_eq hd]
  exact mem_map.mpr ⟨r, hr, rfl⟩

lemma attribute_of_ownRules (hr : r ∈ ownRules ds state) : ∃ a, (r.name, a) ∈ ds.attributes := by
  rcases mem_append.mp hr with hr | hr
  · obtain ⟨rt, hrt, rfl⟩ := mem_map.mp hr
    exact ⟨_, (mem_filter.mp (mem_routinesOf ((perm_sorted _).mem_iff.mp hrt))).1⟩
  · obtain ⟨t, ht, rfl⟩ := mem_map.mp hr
    exact ⟨_, (mem_filter.mp (mem_textsOf ((perm_sorted _).mem_iff.mp ht))).1⟩

lemma ready_of_parts (hp : Parts ds opts built d all) (hn : WellNamed ds) (hs : state ∈ stateNames ds)
    (hr : r ∈ ownRules ds state) (hread : r.Readable ds opts.flags) : r.Ready ds d.tokenNames opts.flags := by
  have hd := hp.reads
  have hgroup : ∃ c, Pattern.compile (Declared.groupText r.name r.pattern) opts.flags = .ok c := by
    obtain ⟨c, hc, -⟩ := passes_of_parts hp hs hr
    exact ⟨c, hc⟩
  have htoken : ∀ {name : String} {a : Attribute (Handler V σ)}, (name, a) ∈ Declared.ruleAttributes ds →
      d.tokenNames.get? name = some (tokenOf ds name) := by
    intro name a ha
    obtain ⟨parts, hparts, htoken⟩ := hd.name (name, a) ha
    rw [htoken hn.nodup, tokenOf, ← stateNames_eq hd, hparts]
  have hmem : ∀ {name : String} {a : Attribute (Handler V σ)}, (name, a) ∈ Declared.ruleAttributes ds →
      (name, a) ∈ ds.attributes := fun h => (mem_filter.mp h).1
  rcases mem_append.mp hr with hr | hr
  · obtain ⟨rt, hrt, rfl⟩ := mem_map.mp hr
    have ha := mem_routinesOf ((perm_sorted _).mem_iff.mp hrt)
    refine ⟨hn.names _ (hmem ha), fun n => ?_, hread, hgroup⟩
    simp only [Build.targetOf, routineRule, lookup_attribute hn.nodup (hmem ha), htoken ha]
    rfl
  · obtain ⟨t, ht, rfl⟩ := mem_map.mp hr
    have ha := mem_textsOf ((perm_sorted _).mem_iff.mp ht)
    refine ⟨hn.names _ (hmem ha), fun n => ?_, hread, hgroup⟩
    simp only [Build.targetOf, textRule, lookup_attribute hn.nodup (hmem ha), htoken ha, Rule.applied]
    rcases Text.placeOf? Declared.ignoreWord t.1.toList with _ | _ | k <;> rfl

end Ready

section Found

variable {ds : Declarations (Handler V σ)} {opts : BuildOptions} {built : Built V σ} {d : Declared V σ}
  {all : List (String × List (Master V σ))} {state : String}

lemma get?_mapKeyed {α : Type} (f : String → α → α) (l : List (String × α)) (k : String) :
    (⟨l.map fun e => (e.1, f e.1 e.2)⟩ : Registry String α).get? k = ((⟨l⟩ : Registry String α).get? k).map (f k) := by
  simp only [Registry.get?]
  induction l with
  | nil => rfl
  | cons e l ih =>
    rw [map_cons, find?_cons, find?_cons]
    by_cases he : e.1 = k
    · subst he
      simp only [beq_self_eq_true, map_some]
    · rw [beq_false_of_ne he]
      exact ih

lemma get?_extendMasters (d : Declared V σ) (all : Registry String (List (Master V σ))) (state : String) :
    (Build.extendMasters d all).get? state = (all.get? state).map fun ms =>
      if state ≠ initialState ∧ d.states.get? state = some .inclusive then ms ++ all.getD initialState [] else ms := by
  rw [← get?_mapKeyed (fun s ms => if s ≠ initialState ∧ d.states.get? s = some .inclusive then
    ms ++ all.getD initialState [] else ms), Build.extendMasters]
  congr 2
  refine map_congr_left fun e _ => ?_
  simp only [Bool.and_eq_true, decide_eq_true_eq]
  split <;> rfl

lemma own_masters (hp : Parts ds opts built d all) (hs : state ∈ d.states.keys) :
    ∃ ms, (⟨all⟩ : Registry String (List (Master V σ))).get? state = some ms ∧
      Build.masters ds d.tokenNames (Pattern.compile? opts.flags) (Build.ruleTexts d state).length
        ((Build.ruleTexts d state).map fun r => Declared.groupText r.1 r.2) = .ok ms := by
  have hall := hp.masters
  clear hp
  generalize d.states.keys = keys at hs hall
  rw [Registry.get?]
  dsimp only
  induction hall with
  | nil => cases hs
  | cons he _ ih =>
    rename_i s e _ _ _
    rw [find?_cons, he.1]
    by_cases hst : s = state
    · subst hst
      exact ⟨e.2, by simp, he.2⟩
    · rw [beq_false_of_ne hst]
      exact ih ((mem_cons.mp hs).resolve_left (Ne.symm hst))

lemma inclusive_iff (hd : Declared.Reads ds d) (state : String) :
    d.states.get? state = some .inclusive ↔ (state, .inclusive) ∈ declaredStates ds := by
  have hentries : d.states.entries = declaredStates ds := hd.states
  have hnodup := hd.nodup
  rw [Registry.keys, hentries] at hnodup
  rw [Registry.get?, hentries]
  generalize declaredStates ds = l at hnodup
  induction l with
  | nil => simp
  | cons e l ih =>
    obtain ⟨hne, hl⟩ := nodup_cons.mp hnodup
    rw [find?_cons, mem_cons]
    by_cases he : e.1 = state
    · subst he
      have hnot : (e.1, StateKind.inclusive) ∉ l := fun h => hne (mem_map.mpr ⟨_, h, rfl⟩)
      simp only [beq_self_eq_true, map_some, Option.some.injEq, hnot, or_false]
      exact ⟨fun h => h ▸ rfl, fun h => h ▸ rfl⟩
    · have hne' : (state, StateKind.inclusive) ≠ e := fun h => he (h ▸ rfl)
      rw [beq_false_of_ne he]
      simpa only [hne', false_or] using ih hl

lemma firstMatch_own (hp : Parts ds opts built d all) (hn : WellNamed ds)
    (hread : ∀ s ∈ stateNames ds, ∀ r ∈ ownRules ds s, r.Readable ds opts.flags)
    (hs : state ∈ stateNames ds) : ∃ ms, (⟨all⟩ : Registry String (List (Master V σ))).get? state = some ms ∧
      ∀ position rest, firstMatch position rest ms =
        (ownRules ds state).findSome? fun r => r.found opts.flags position rest := by
  have hd := hp.reads
  obtain ⟨ms, hget, hms⟩ := own_masters hp ((stateNames_eq hd).symm ▸ hs)
  refine ⟨ms, hget, fun position rest => ?_⟩
  rw [ruleTexts_eq hd, List.map_map] at hms
  exact firstMatch_masters (fun r hr => ready_of_parts hp hn hs hr (hread state hs r hr)) hms position rest

lemma firstMatch_rulesIn (hp : Parts ds opts built d all) (hn : WellNamed ds)
    (hread : ∀ s ∈ stateNames ds, ∀ r ∈ ownRules ds s, r.Readable ds opts.flags) (hs : state ∈ stateNames ds)
    (position : Nat) (rest : List Char) : firstMatch position rest ((Build.extendMasters d ⟨all⟩).getD state []) =
      (rulesIn ds state).findSome? fun r => r.found opts.flags position rest := by
  have hd := hp.reads
  obtain ⟨ms, hget, hms⟩ := firstMatch_own hp hn hread hs
  obtain ⟨initial, hinitial, hfirst⟩ := firstMatch_own hp hn hread (show initialState ∈ stateNames ds from mem_cons_self)
  rw [Registry.getD, get?_extendMasters, hget, Registry.getD, hinitial, rulesIn]
  simp only [map_some, getD_some, inclusive_iff hd]
  split
  · rw [firstMatch_append, hms, hfirst, findSome?_append]
  · rw [hms, append_nil]

end Found

/-- Wherever a scanner looks for a match, it finds that of the first rule whose own pattern matches there: first the
routines of its state by lines, then its texts by decreasing lengths, and if the state is inclusive those of the initial
state after them. What the match leads to is as declared, but for a text whose name has the word elsewhere than its token. -/
theorem firstMatch_eq_first_rule {ds : Declarations (Handler V σ)} {opts : BuildOptions} {built : Built V σ} {logs : Logs}
    (hb : build ds opts = (.ok built, logs)) (hn : WellNamed ds)
    (hread : ∀ s ∈ built.states, ∀ r ∈ ownRules ds s, r.Readable ds opts.flags) {sc : Scanner V σ}
    (hk : Keeps built.scanner sc) (hs : sc.state ∈ built.states) :
    (∀ position rest, firstMatch position rest sc.masters =
      (rulesIn ds sc.state).findSome? fun r => r.found opts.flags position rest) ∧
    (∀ s, InOrder ds s (ownRules ds s)) ∧ ∀ r ∈ rulesIn ds sc.state, r.applied = r.declared ↔ r.Clear := by
  obtain ⟨d, all, hp⟩ := parts_of_build hb
  have hd := hp.reads
  rw [hp.states, stateNames_eq hd] at hread hs
  refine ⟨fun position rest => ?_, inOrder_ownRules ds, fun r _ => applied_eq_declared_iff r⟩
  have hmasters : sc.masters = (Build.extendMasters d ⟨all⟩).getD sc.state [] := by
    have hsettled := hk.settled (settled_of_build hb)
    rw [← hsettled, refreshed, hk.rules, hp.scanner]
    rfl
  rw [hmasters]
  exact firstMatch_rulesIn hp hn hread hs position rest

section Layered

/-- Three rules that share no pattern, as two of them have a group of one name; an inclusive state; and a state that is
named like the word. -/
def layered : Declarations (Handler String String) where
  file := "layered"
  attributes :=
    [("states", .value (.list [.tuple [.text "s", .text "inclusive"], .tuple [.text "ignore", .text "exclusive"]])),
      ("t_A", .value (.text "(?P<x>a)")), ("t_AB", .value (.text "(?P<x>a)bb")), ("t_AC", .value (.text "(a|b)(c)+")),
      ("t_error", .routine (silently "t_error" 1 [.skip 1])), ("t_ignore_A", .value (.text "a")),
      ("t_s_B", .value (.text "b")), ("tokens", .value (.list [.text "A", .text "AB", .text "AC", .text "B"]))]
  source := none

set_option maxRecDepth 10000 in
lemma build_layered : ∃ built, (build layered {}).1 = .ok built ∧ built.states = ["INITIAL", "s", "ignore"] ∧
    (built.scanner.rules.masters.getD "s" []).length = 3 := by
  exact ⟨_, rfl, rfl, rfl⟩

lemma readable_layered : ∀ s ∈ ["INITIAL", "s", "ignore"], ∀ r ∈ ownRules layered s,
    r.Readable layered { verbose := true } := by
  have hinitial : ownRules layered "INITIAL" =
    [⟨"t_AB", "(?P<x>a)bb", "AB", none⟩, ⟨"t_AC", "(a|b)(c)+", "AC", none⟩, ⟨"t_A", "(?P<x>a)", "A", none⟩] := rfl
  have hs : ownRules layered "s" = [⟨"t_s_B", "b", "B", none⟩] := rfl
  have hignore : ownRules layered "ignore" = [⟨"t_ignore_A", "a", "A", none⟩] := rfl
  simp only [forall_mem_cons, not_mem_nil, false_imp_iff, implies_true, hinitial, hs, hignore, and_true]
  exact ⟨⟨⟨_, rfl, by decide⟩, ⟨_, rfl, by decide⟩, ⟨_, rfl, by decide⟩⟩, ⟨_, rfl, by decide⟩, ⟨_, rfl, by decide⟩⟩

theorem firstMatch_layered : ∃ built logs, build layered {} = (.ok built, logs) ∧ WellNamed layered ∧
    (∀ s ∈ built.states, ∀ r ∈ ownRules layered s, r.Readable layered { verbose := true }) ∧
    "s" ∈ built.states ∧
    firstMatch 0 "abbc".toList (refreshed { built.scanner with state := "s" }).masters = some (3, .ok (.token "AB")) ∧
    firstMatch 3 "ccab".toList (refreshed { built.scanner with state := "s" }).masters = none := by
  obtain ⟨built, hbuilt, hstates, -⟩ := build_layered
  have hb : build layered {} = (.ok built, (build layered {}).2) := Prod.ext hbuilt rfl
  have hn : WellNamed layered := ⟨by decide, by decide⟩
  have hread : ∀ s ∈ built.states, ∀ r ∈ ownRules layered s, r.Readable layered { verbose := true } :=
    hstates ▸ readable_layered
  have hs : "s" ∈ built.states := by
    rw [hstates]
    decide
  have hfirst := (firstMatch_eq_first_rule hb hn hread (Keeps.refreshed built.scanner "s") hs).1
  refine ⟨built, _, hb, hn, hread, hs, (hfirst _ _).trans rfl, (hfirst _ _).trans rfl⟩

/-- The text is declared to make a token, but its match is left out, as the name of its state has the word. -/
theorem match_of_ignore_state_left_out : ∃ built, (build layered {}).1 = .ok built ∧
    rulesIn layered "ignore" = [⟨"t_ignore_A", "a", "A", none⟩] ∧
    (⟨"t_ignore_A", "a", "A", none⟩ : Rule String String).declared = .token "A" ∧
    firstMatch 0 "a".toList (refreshed { built.scanner with state := "ignore" }).masters = some (1, .ok .ignored) := by
  exact ⟨_, rfl, rfl, rfl, rfl⟩

end Layered
end LispKit.Scanner
