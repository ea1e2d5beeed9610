import LispKit.Proofs.Automaton.Lookahead
import LispKit.Proofs.Grammar.Declare
import LispKit.Proofs.Grammar.Rightmost

/-! Symbols that are settled pass by pass: the last pass leaves nothing to settle, so the vanishing symbols are those that
derive nothing, and every finishing symbol derives terminals. -/

namespace LispKit.Grammar

open Vocabulary List Registry

variable {S : Type} [DecidableEq S] {g : Grammar S} {settled : List S}

/-- How many of the names are among the symbols. -/
def held (names settled : List S) : Nat :=
  names.countP settled.contains

lemma held_lt {names more : List S} {s : S} (hsub : settled ⊆ more) (hs : s ∈ names) (hold : s ∉ settled)
    (hnew : s ∈ more) : held names settled < held names more := by
  obtain ⟨before, after, rfl⟩ := List.append_of_mem hs
  have hmono : ∀ names : List S, held names settled ≤ held names more := fun names =>
    countP_mono_left fun a _ ha => contains_iff_mem.mpr (hsub (contains_iff_mem.mp ha))
  have hbefore := hmono before
  have hafter := hmono after
  simp only [held, countP_append, countP_cons, if_pos (contains_iff_mem.mpr hnew), if_neg (mt contains_iff_mem.mp hold)]
    at hbefore hafter ⊢
  omega

section Settle

variable {rules : List (S × List (List S))} {base : List S}

lemma mem_settleRule {rule : S × List (List S)} {s : S} : s ∈ settleRule settled rule ↔
    s ∈ settled ∨ s = rule.1 ∧ ∃ body ∈ rule.2, ∀ a ∈ body, a ∈ settled := by
  unfold settleRule
  split
  · rename_i h
    simp only [Bool.and_eq_true, Bool.not_eq_true', any_eq_true, all_eq_true, contains_iff_mem] at h
    simp [h.2]
  · rename_i h
    simp only [Bool.and_eq_true, Bool.not_eq_true', any_eq_true, all_eq_true, contains_iff_mem] at h
    refine ⟨.inl, ?_⟩
    rintro (hs | ⟨rfl, hbody⟩)
    · exact hs
    · by_contra hs
      exact h ⟨by simpa using hs, hbody⟩

lemma prefix_settleRule (settled : List S) (rule : S × List (List S)) : settled <+: settleRule settled rule := by
  unfold settleRule
  split
  · exact prefix_append _ _
  · exact prefix_refl _

lemma prefix_pass (rules : List (S × List (List S))) (settled : List S) : settled <+: rules.foldl settleRule settled := by
  induction rules generalizing settled with
  | nil => exact prefix_refl _
  | cons r rules ih => exact (prefix_settleRule settled r).trans (ih _)

def Settled (rules : List (S × List (List S))) (settled : List S) : Prop :=
  ∀ r ∈ rules, ∀ body ∈ r.2, (∀ a ∈ body, a ∈ settled) → r.1 ∈ settled

/-- A pass that makes the list no longer has come to nothing new at any rule. -/
lemma settled_of_pass (h : (rules.foldl settleRule settled).length = settled.length) :
    rules.foldl settleRule settled = settled ∧ Settled rules settled := by
  induction rules with
  | nil => exact ⟨rfl, forall_mem_nil _⟩
  | cons r rules ih =>
    rw [foldl_cons] at h ⊢
    have hfirst := prefix_settleRule settled r
    have hrest := (prefix_pass rules (settleRule settled r)).length_le
    have hsame : settleRule settled r = settled := (hfirst.eq_of_length (Nat.le_antisymm hfirst.length_le (by omega))).symm
    rw [hsame] at h ⊢
    obtain ⟨heq, hall⟩ := ih h
    refine ⟨heq, forall_mem_cons.mpr ⟨fun body hbody ha => ?_, hall⟩⟩
    exact hsame ▸ mem_settleRule.mpr (.inr ⟨rfl, body, hbody, ha⟩)

lemma exists_of_pass (h : (rules.foldl settleRule settled).length ≠ settled.length) :
    ∃ r ∈ rules, r.1 ∉ settled ∧ r.1 ∈ rules.foldl settleRule settled := by
  induction rules with
  | nil => exact absurd rfl h
  | cons r rules ih =>
    by_cases hsame : settleRule settled r = settled
    · rw [foldl_cons, hsame] at h ⊢
      obtain ⟨q, hq, hnew⟩ := ih h
      exact ⟨q, mem_cons_of_mem _ hq, hnew⟩
    · unfold settleRule at hsame
      split at hsame
      · rename_i hc
        refine ⟨r, mem_cons_self, by simpa using (Bool.and_eq_true_iff.mp hc).1, (prefix_pass rules _).subset ?_⟩
        rw [settleRule, if_pos hc]
        exact mem_append_right _ (mem_singleton.mpr rfl)
      · exact absurd rfl hsame

lemma settled_settle {n : Nat} (hn : rules.length < n + held (rules.map Prod.fst) settled) :
    Settled rules (settle rules n settled) := by
  induction n generalizing settled with
  | zero =>
    have hle : held (rules.map Prod.fst) settled ≤ (rules.map Prod.fst).length := countP_le_length
    rw [length_map] at hle
    omega
  | succ n ih =>
    rw [settle]
    split
    · rename_i h
      obtain ⟨heq, hall⟩ := settled_of_pass h
      rwa [heq]
    · rename_i h
      obtain ⟨r, hr, hold, hnew⟩ := exists_of_pass h
      have hlt := held_lt (prefix_pass rules settled).subset (mem_map_of_mem hr) hold hnew
      exact ih (by omega)

/-- The rules list the productions of the grammar by their names. -/
def Lists (g : Grammar S) (rules : List (S × List (List S))) : Prop :=
  ∀ name body, (∃ r ∈ rules, r.1 = name ∧ body ∈ r.2) ↔ ∃ pr ∈ g.productions, pr.name = name ∧ pr.symbols = body

omit [DecidableEq S] in
lemma lists_productions : g.Lists (g.productions.map fun p => (p.name, [p.symbols])) := by
  simp [Lists, eq_comm]

lemma Numbered.isDefined (hg : g.Numbered) {pr : Production S} (hpr : pr ∈ g.productions) : g.isDefined pr.name = true := by
  obtain ⟨n, hn, -⟩ := mem_filterMap.mp (hg.mem hpr)
  cases hget : g.rules.get? pr.name with
  | none => simp [Registry.getD, hget] at hn
  | some ns =>
    obtain ⟨e, he, hb, -⟩ := mem_of_get? hget
    exact any_eq_true.mpr ⟨e, he, hb⟩

lemma Numbered.lists (hg : g.Numbered) :
    g.Lists (g.rules.keys.map fun s => (s, (g.productionsOf s).map Production.symbols)) := by
  intro name body
  constructor
  · rintro ⟨r, hr, rfl, hbody⟩
    obtain ⟨s, -, rfl⟩ := mem_map.mp hr
    obtain ⟨pr, hpr, rfl⟩ := mem_map.mp hbody
    exact ⟨pr, hg.mem_productions hpr, hg.name hpr, rfl⟩
  · rintro ⟨pr, hpr, rfl, rfl⟩
    exact ⟨_, mem_map_of_mem ((contains_iff_mem_keys _ _).mp (hg.isDefined hpr)), rfl, mem_map_of_mem (hg.mem hpr)⟩

lemma of_mem_settle {P : S → Prop} (hrules : g.Lists rules) (hbase : ∀ s ∈ settled, P s)
    (hpass : ∀ pr ∈ g.productions, (∀ a ∈ pr.symbols, P a) → P pr.name) (n : Nat) : ∀ s ∈ settle rules n settled, P s := by
  have hrule : ∀ r ∈ rules, ∀ body ∈ r.2, (∀ a ∈ body, P a) → P r.1 := by
    intro r hr body hbody ha
    obtain ⟨pr, hpr, hname, rfl⟩ := (hrules _ _).mp ⟨r, hr, rfl, hbody⟩
    exact hname ▸ hpass pr hpr ha
  have hfold : ∀ rs ⊆ rules, ∀ settled : List S, (∀ s ∈ settled, P s) → ∀ s ∈ rs.foldl settleRule settled, P s := by
    intro rs
    induction rs with
    | nil => exact fun _ _ h => h
    | cons r rs ih =>
      intro hrs settled h
      obtain ⟨hr, hrs⟩ := cons_subset.mp hrs
      refine ih hrs _ fun s hs => ?_
      rcases mem_settleRule.mp hs with hs | ⟨rfl, body, hbody, ha⟩
      · exact h s hs
      · exact hrule r hr body hbody fun a hb => h a (ha a hb)
  induction n generalizing settled with
  | zero => exact hbase
  | succ n ih =>
    rw [settle]
    split
    · exact hfold rules (Subset.refl _) _ hbase
    · exact ih (hfold rules (Subset.refl _) _ hbase)

def Closed (g : Grammar S) (settled : List S) : Prop :=
  ∀ pr ∈ g.productions, (∀ a ∈ pr.symbols, a ∈ settled) → pr.name ∈ settled

theorem closed_settleAll (hrules : g.Lists rules) (base : List S) : g.Closed (settleAll rules base) := by
  intro pr hpr hall
  obtain ⟨r, hr, hname, hbody⟩ := (hrules _ _).mpr ⟨pr, hpr, rfl, rfl⟩
  rw [← hname]
  exact settled_settle (by omega) r hr _ hbody hall

end Settle

section Derived

variable {terminal final : S → Prop}

lemma exists_rightmost_of_mem_settleAll {rules : List (S × List (List S))} (hrules : g.Lists rules)
    (hfinal : ∀ s, final s → terminal s) {base : List S} (hbase : ∀ s ∈ base, final s) {s : S}
    (hs : s ∈ settleAll rules base) : ∃ used w, (∀ t ∈ w, final t) ∧ Rightmost g.all terminal used [s] w := by
  refine of_mem_settle (P := fun s => ∃ used w, (∀ t ∈ w, final t) ∧ Rightmost g.all terminal used [s] w) hrules ?_ ?_ _
    s hs
  · intro s hs
    exact ⟨[], [s], forall_mem_singleton.mpr (hbase s hs), .refl _⟩
  · intro pr hpr hall
    obtain ⟨used, w, hw, hsymbols⟩ := Rightmost.exists_of_forall hfinal hall
    have hstep : Rightmost g.all terminal used ([] ++ pr.symbols ++ []) w := by
      rwa [nil_append, append_nil]
    exact ⟨pr :: used, w, hw, .step (mem_append_right _ hpr) (forall_mem_nil _) hstep⟩

lemma exists_rightmost_nil {symbols : List S} (h : ∀ s ∈ symbols, s ∈ g.nullable) (terminal : S → Prop) :
    ∃ used, Rightmost g.all terminal used symbols [] := by
  have hvanish : ∀ s ∈ symbols, ∃ used w, (∀ t ∈ w, False) ∧ Rightmost g.all terminal used [s] w := fun s hs =>
    exists_rightmost_of_mem_settleAll lists_productions (fun _ hf => hf.elim) (forall_mem_nil _) (h s hs)
  obtain ⟨used, w, hw, hs⟩ := Rightmost.exists_of_forall (fun _ hf => hf.elim) hvanish
  rw [eq_nil_iff_forall_not_mem.mpr hw] at hs
  exact ⟨used, hs⟩

end Derived

variable [Vocabulary S] {p : Production S} {start : S}

def IsInput (g : Grammar S) (s : S) : Prop :=
  g.isTerminal s = true ∨ s = endMark

lemma Ready.exists_rightmost (hr : g.Ready p start) (hend : g.endless = []) {symbols : List S}
    (h : ∀ s ∈ symbols, g.isTerminal s = true ∨ g.isNonterminal s = true) :
    ∃ used w, (∀ t ∈ w, g.IsInput t) ∧ Rightmost g.all g.IsInput used symbols w := by
  refine Rightmost.exists_of_forall (fun _ hs => hs) fun s hs => ?_
  rcases h s hs with hterm | hnon
  · exact ⟨[], [s], forall_mem_singleton.mpr (.inl hterm), .refl _⟩
  · have hdone : s ∈ g.finishing := by
      obtain ⟨pr, hpr, rfl⟩ := hr.defined hnon
      by_contra hnot
      have hmem : pr.name ∈ g.endless := by
        simp only [endless, mem_filter, mem_distinct]
        refine ⟨?_, ?_⟩
        · exact mem_append_right _ (mem_cons_of_mem _ ((contains_iff_mem_keys _ _).mp hnon))
        · simp [hr.numbered.isDefined hpr, hnot]
      rw [hend] at hmem
      cases hmem
    refine exists_rightmost_of_mem_settleAll hr.numbered.lists (fun _ hs => hs) (fun t ht => ?_) hdone
    rcases mem_append.mp (mem_filter.mp ht).1 with ht | ht
    · exact .inl ((contains_iff_mem_keys _ _).mpr ht)
    · exact .inr (mem_singleton.mp ht)

lemma Ready.sorted (hr : g.Ready p start) (hapart : ∀ s, g.isTerminal s = true → g.isNonterminal s = false) :
    Lookahead.Sorted g where
  name hpr := (hr.name hpr).2
  symbol := hr.symbol
  apart := hapart _
  vanishing hs := of_mem_settle (P := fun s => g.isNonterminal s = true) lists_productions (forall_mem_nil _)
    (fun _ hpr _ => (hr.name hpr).2) _ _ hs
  vanishes hpr hall := closed_settleAll lists_productions [] _ hpr hall

end LispKit.Grammar
