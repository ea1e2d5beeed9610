import LispKit.Proofs.Grammar.Declare

/-! The tables of a declared grammar: which productions they list for a symbol, and when a symbol stands in both. -/

namespace LispKit

open List Registry

section Registry

variable {κ ν : Type} [BEq κ] [LawfulBEq κ]

lemma Registry.getD_insertIfNew (r : Registry κ ν) (k l : κ) (v : ν) : (r.insertIfNew l v).getD k v = r.getD k v := by
  by_cases h : r.contains l = true
  · simp only [insertIfNew, h, if_true]
  · simp only [insertIfNew, h, if_false, Bool.false_eq_true, getD]
    by_cases hk : l = k
    · subst hk
      have hnone : r.get? l = none := by
        simp only [contains, any_eq_true, not_exists, not_and] at h
        simpa only [get?, Option.map_eq_none_iff, find?_eq_none] using h
      rw [get?_insert_self, hnone]
      rfl
    · rw [get?_insert_of_ne _ _ (beq_eq_false_iff_ne.mpr hk)]

lemma Registry.count_update (r : Registry κ (List Nat)) [DecidableEq κ] (k l : κ) (number n : Nat) :
    ((r.update k [] (· ++ [number])).getD l []).count n =
      (r.getD l []).count n + if k = l ∧ number = n then 1 else 0 := by
  by_cases hk : k = l
  · subst hk
    rw [getD_update_self, count_append, count_singleton]
    simp
  · rw [getD_update_of_ne _ _ _ hk]
    simp [hk]

end Registry

namespace Grammar

variable {S : Type} [DecidableEq S]

def listed (g : Grammar S) (s : S) (n : Nat) : Nat :=
  (g.terminals.getD s []).count n + (g.nonterminals.getD s []).count n

def occurrences (g : Grammar S) (s : S) (n : Nat) : Nat :=
  ((g.production? n).map fun p => p.symbols.count s).getD 0

structure Consistent (g : Grammar S) : Prop where
  disjoint : ∀ s, g.isTerminal s = true → g.isNonterminal s = false
  number : ∀ n p, g.production? n = some p → p.number = n
  rules : ∀ s, g.productionsOf s = g.productions.filter fun p => p.name = s
  defined : ∀ s, g.isDefined s = true ↔ ∃ p ∈ g.productions, p.name = s
  distinct : g.productions.Pairwise fun p q => ¬ (p.name = q.name ∧ p.symbols = q.symbols)
  known : ∀ p ∈ g.all, ∀ s ∈ p.symbols, g.isTerminal s = true ∨ g.isNonterminal s = true
  terminals : ∀ s, g.isTerminal s = true → ∀ n, (g.terminals.getD s []).count n = g.occurrences s n
  nonterminals : ∀ s, g.isNonterminal s = true → ∀ n, (g.nonterminals.getD s []).count n = g.occurrences s n

/-- What holds of the tables even where a symbol stands in both. -/
structure Registered (g : Grammar S) : Prop extends Listed g where
  augmented : ∀ p ∈ g.augmented, p.number = 0
  named : ∀ p ∈ g.productions, g.isDefined p.name = true
  distinct : g.productions.Pairwise fun p q => ¬ (p.name = q.name ∧ p.symbols = q.symbols)
  known : ∀ p ∈ g.all, ∀ s ∈ p.symbols, g.isTerminal s = true ∨ g.isNonterminal s = true
  uses : ∀ s n, g.listed s n = g.occurrences s n

namespace Registered

variable {g : Grammar S}

lemma getD_of_not_contains {r : Registry S (List Nat)} {s : S} (h : r.contains s = false) : r.getD s [] = [] := by
  have hnone : r.get? s = none := by
    simp only [Registry.contains, any_eq_false] at h
    simpa only [Registry.get?, Option.map_eq_none_iff, find?_eq_none] using h
  simp [Registry.getD, hnone]

lemma productionsOf_eq (h : g.Registered) (s : S) : g.productionsOf s = g.productions.filter fun p => p.name = s := by
  rw [productionsOf, h.rules, filterMap_map]
  have hmem : ∀ p ∈ g.productions.filter fun p => p.name = s, (g.production? ∘ Production.number) p = some p := by
    intro p hp
    obtain ⟨n, -, hn⟩ := h.toListed.production?_number (mem_filter.mp hp).1
    exact hn
  generalize (g.productions.filter fun p => p.name = s) = ps at hmem
  induction ps with
  | nil => rfl
  | cons p ps ih =>
    rw [filterMap_cons, hmem p mem_cons_self, ih fun q hq => hmem q (mem_cons_of_mem p hq)]

lemma consistent_iff (h : g.Registered) : g.Consistent ↔ ∀ s, g.isTerminal s = true → g.isNonterminal s = false := by
  refine ⟨fun hg => hg.disjoint, fun hd => ⟨hd, ?_, h.productionsOf_eq, ?_, h.distinct, h.known, ?_, ?_⟩⟩
  · intro n p hp
    cases n with
    | zero => exact h.augmented p hp
    | succ n => exact h.number hp
  · intro s
    refine ⟨fun hs => h.defined hs, ?_⟩
    rintro ⟨p, hp, rfl⟩
    exact h.named p hp
  · intro s hs n
    have huse := h.uses s n
    rw [listed, getD_of_not_contains (hd s hs)] at huse
    simpa using huse
  · intro s hs n
    have hterm : g.terminals.contains s = false := by
      cases ht : g.terminals.contains s with
      | false => rfl
      | true => simp [hd s ht] at hs
    have huse := h.uses s n
    rw [listed, getD_of_not_contains hterm] at huse
    simpa using huse

lemma getD_foldl_insertIfNew (ts : List S) (r : Registry S (List Nat)) (s : S) :
    (ts.foldl (fun r t => r.insertIfNew t []) r).getD s [] = r.getD s [] := by
  induction ts generalizing r with
  | nil => rfl
  | cons t ts ih => exact (ih _).trans (getD_insertIfNew r s t [])

lemma ofTerminals [Vocabulary S] (ts : List S) : (ofTerminals ts : Grammar S).Registered := by
  refine ⟨⟨?_, ?_, ?_⟩, ?_, ?_, List.Pairwise.nil, ?_, ?_⟩
  · intro n p h
    cases h
  · intro s
    rfl
  · intro s h
    cases h
  · intro p h
    cases h
  · intro p h
    cases h
  · intro p h
    cases h
  · intro s n
    have hn : (Grammar.ofTerminals ts : Grammar S).production? n = none := by
      cases n <;> rfl
    simp only [listed, occurrences, hn]
    rw [show (Grammar.ofTerminals ts : Grammar S).terminals.getD s [] = [] from getD_foldl_insertIfNew _ _ s]
    rfl

end Registered

section Insert

variable {g : Grammar S}

lemma listed_use (number : Nat) (g : Grammar S) (a s : S) (n : Nat) :
    (use number g a).listed s n = g.listed s n + if a = s ∧ number = n then 1 else 0 := by
  simp only [use]
  split
  · simp only [listed, count_update]
    omega
  · simp only [listed, count_update]
    omega

lemma listed_foldl_use (number : Nat) (symbols : List S) (g : Grammar S) (s : S) (n : Nat) :
    (symbols.foldl (use number) g).listed s n = g.listed s n + if number = n then symbols.count s else 0 := by
  induction symbols generalizing g with
  | nil => simp
  | cons a symbols ih =>
    rw [foldl_cons, ih, listed_use, count_cons]
    by_cases hn : number = n
    · simp only [hn, and_true, if_true, beq_iff_eq]
      omega
    · simp only [hn, and_false, if_false, Nat.add_zero]

lemma listed_insert (g : Grammar S) (name : S) (symbols : List S) (precedence : Precedence) (file : String)
    (line : Int) (rule : String) (s : S) (n : Nat) : (g.insert name symbols precedence file line rule).listed s n =
      g.listed s n + if g.size = n then symbols.count s else 0 := by
  have h := listed_foldl_use g.size symbols { g with nonterminals := g.nonterminals.insertIfNew name [] } s n
  simp only [listed, getD_insertIfNew] at h
  simpa only [listed, insert] using h

lemma occurrences_append (g : Grammar S) (p : Production S) (ts ns : Registry S (List Nat)) (rs : Registry S (List Nat))
    (s : S) (n : Nat) :
    Grammar.occurrences { g with
      terminals := ts, nonterminals := ns, productions := g.productions ++ [p], rules := rs } s n =
      g.occurrences s n + if g.size = n then p.symbols.count s else 0 := by
  cases n with
  | zero =>
    have : g.size ≠ 0 := Nat.succ_ne_zero _
    simp [occurrences, production?, this]
  | succ n =>
    simp only [occurrences, production?]
    rcases Nat.lt_trichotomy n g.productions.length with h | h | h
    · have : g.size ≠ n + 1 := by
        simp only [size]
        omega
      simp [getElem?_append_left h, this]
    · subst h
      simp [size]
    · have : g.size ≠ n + 1 := by
        simp only [size]
        omega
      rw [getElem?_eq_none (by simp only [length_append, length_singleton]; omega),
        getElem?_eq_none (by omega)]
      simp [this]

lemma Registered.insert (h : g.Registered) {name : S} {symbols : List S} (precedence : Precedence) (file : String)
    (line : Int) (rule : String) (hnew : ∀ p ∈ g.productions, ¬ (p.name = name ∧ p.symbols = symbols)) :
    (g.insert name symbols precedence file line rule).Registered := by
  have hlisted := h.toListed.insert name symbols precedence file line rule
  have huse := listed_insert g name symbols precedence file line rule
  obtain ⟨ts, ns, heq, ht, hn⟩ := insert_spec g name symbols precedence file line rule
  rw [heq] at hlisted huse ⊢
  refine ⟨hlisted, h.augmented, ?_, ?_, ?_, ?_⟩
  · intro p hp
    rw [isDefined, contains_update]
    rcases mem_append.mp hp with hp | hp
    · exact .inl (h.named p hp)
    · exact .inr (congrArg Production.name (mem_singleton.mp hp))
  · refine pairwise_append.mpr ⟨h.distinct, pairwise_singleton _ _, ?_⟩
    intro p hp q hq
    obtain rfl := mem_singleton.mp hq
    exact hnew p hp
  · intro p hp s hs
    have hold : p ∈ g.all ∨ p.symbols = symbols := by
      simp only [all, mem_append, mem_singleton] at hp ⊢
      rcases hp with hp | hp | rfl
      · exact .inl (.inl hp)
      · exact .inl (.inr hp)
      · exact .inr rfl
    rcases hold with hold | rfl
    · exact (h.known p hold s hs).imp (ht s).mpr fun hs => (hn s).mpr (.inl hs)
    · cases hterm : g.isTerminal s with
      | true => exact .inl ((ht s).mpr hterm)
      | false => exact .inr ((hn s).mpr (.inr (.inr ⟨hs, hterm⟩)))
  · intro s n
    rw [huse s n, h.uses s n]
    exact (occurrences_append g ⟨g.size, name, symbols, precedence, file, line, rule⟩ ts ns _ s n).symm

lemma Registered.setStart [Vocabulary S] (h : g.Registered) (hnone : g.augmented = none) (s : S) :
    (g.setStart s).Registered := by
  refine ⟨⟨h.number, h.rules, h.defined⟩, ?_, h.named, h.distinct, ?_, ?_⟩
  · intro p hp
    obtain rfl := Option.some.inj hp
    rfl
  · intro p hp a ha
    rw [isNonterminal, Grammar.setStart, contains_update]
    simp only [all, Grammar.setStart, Option.toList_some, singleton_append, mem_cons] at hp
    rcases hp with rfl | hp
    · exact .inr (.inr (mem_singleton.mp ha))
    · exact (h.known p (mem_append_right _ hp) a ha).imp_right .inl
  · intro a n
    have huse := h.uses a n
    simp only [listed, occurrences, Grammar.setStart, count_update] at huse ⊢
    cases n with
    | zero =>
      simp only [production?, hnone, Option.map_none, Option.getD_none] at huse
      simp only [production?, Option.map_some, Option.getD_some, count_singleton, and_true, beq_iff_eq]
      omega
    | succ n => simpa [production?] using huse

end Insert

section Declare

variable {g g' : Grammar String} {symbols symbols' : List String} {place : Place} {name rule : String}

lemma getD_quoting (quoted : List String) (g : Grammar String) (s : String) :
    (g.quoting quoted).terminals.getD s [] = g.terminals.getD s [] :=
  Registered.getD_foldl_insertIfNew quoted g.terminals s

lemma Registered.declare (h : g.Registered) (hg : Grammar.declare g name symbols place rule = (.ok (), g')) :
    g'.Registered := by
  obtain ⟨used, symbols', precedence, rfl, -, -, -, -, hnew⟩ := declare_ok hg
  have hbefore : Registered { g.quoting (literals symbols) with usedPrecedence := used } := by
    refine ⟨⟨h.number, h.rules, h.defined⟩, h.augmented, h.named, h.distinct, ?_, ?_⟩
    · intro p hp s hs
      exact (h.known p hp s hs).imp_left fun hs => (isTerminal_quoting _ s).mpr (.inl hs)
    · intro s n
      have huse := h.uses s n
      rw [listed] at huse ⊢
      rw [getD_quoting]
      exact huse
  exact hbefore.insert precedence place.file place.line rule hnew

lemma overlap_declare (hg : Grammar.declare g name symbols place rule = (.ok (), g')) (s : String) :
    g'.isTerminal s = true ∧ g'.isNonterminal s = true ↔ g.isTerminal s = true ∧ g.isNonterminal s = true ∨
      s ∈ literals symbols ∧ (s = name ∨ g.isNonterminal s = true) := by
  obtain ⟨used, symbols', precedence, rfl, hname, -⟩ := declare_ok hg
  let g₁ := { g.quoting (literals symbols) with usedPrecedence := used }
  obtain ⟨ts', ns, heq, ht, hn⟩ := insert_spec g₁ name symbols' precedence place.file place.line rule
  have hterm : g₁.isTerminal s = true ↔ g.isTerminal s = true ∨ s ∈ literals symbols := isTerminal_quoting _ s
  rw [heq, isTerminal, isNonterminal, ht s, hn s, ← Bool.not_eq_true, hterm]
  change _ ∧ (g.isNonterminal s = true ∨ _) ↔ _
  by_cases hs : s = name
  · subst hs
    simp [hname]
  · by_cases h₁ : g.isTerminal s = true <;> by_cases h₂ : s ∈ literals symbols <;> simp [hs, h₁, h₂]

end Declare

inductive Declaration where
  | precedence (symbol associativity : String) (level : Int)
  | production (name : String) (symbols : List String) (place : Place) (rule : String)

namespace Declaration

def perform (g : Grammar String) : Declaration → Option (Grammar String)
  | precedence symbol associativity level =>
    some (match setPrecedence g symbol associativity level with
      | .ok g => g
      | .error _ => g)
  | production name symbols place rule =>
    match declare g name symbols place rule with
    | (.ok (), g) => some g
    | (.error _, _) => none

def performAll (g : Grammar String) : List Declaration → Option (Grammar String)
  | [] => some g
  | d :: ds => (d.perform g).bind fun g => performAll g ds

def clashes (g : Grammar String) : Declaration → List String
  | precedence .. => []
  | production name symbols _ _ => (literals symbols).filter fun c => c = name || g.isNonterminal c

/-- No production quotes a symbol that is a nonterminal by then. -/
def NeverClash (g : Grammar String) : List Declaration → Prop
  | [] => True
  | d :: ds => d.clashes g = [] ∧ ∀ g' ∈ d.perform g, NeverClash g' ds

instance (g : Grammar String) (ds : List Declaration) : Decidable (NeverClash g ds) :=
  match ds with
  | [] => isTrue trivial
  | d :: ds =>
    match h : d.perform g with
    | none => decidable_of_iff (d.clashes g = []) (by simp [NeverClash, h])
    | some g' =>
      have := instDecidableNeverClash g' ds
      decidable_of_iff (d.clashes g = [] ∧ NeverClash g' ds) (by simp [NeverClash, h])

variable {g g' : Grammar String} {d : Declaration} {ds : List Declaration}

lemma perform_cases (h : d.perform g = some g') :
    d.clashes g = [] ∧ (∃ precedence, g' = { g with precedence := precedence }) ∨
    ∃ name symbols place rule, d = production name symbols place rule ∧
      declare g name symbols place rule = (.ok (), g') := by
  cases d with
  | precedence symbol associativity level =>
    refine .inl ⟨rfl, ?_⟩
    obtain rfl := Option.some.inj h
    simp only [setPrecedence]
    split
    · rename_i g₁ hg
      split at hg
      · cases hg
      · split at hg
        · cases hg
        · split at hg
          · cases hg
          · exact ⟨_, (Except.ok.inj hg).symm⟩
    · exact ⟨g.precedence, rfl⟩
  | production name symbols place rule =>
    refine .inr ⟨name, symbols, place, rule, rfl, ?_⟩
    simp only [perform] at h
    split at h
    · rename_i hg
      rw [hg, Option.some.inj h]
    · cases h

lemma registered_perform (hg : g.Registered) (h : d.perform g = some g') : g'.Registered := by
  obtain ⟨-, precedence, rfl⟩ | ⟨name, symbols, place, rule, -, hd⟩ := perform_cases h
  · exact ⟨⟨hg.number, hg.rules, hg.defined⟩, hg.augmented, hg.named, hg.distinct, hg.known, hg.uses⟩
  · exact hg.declare hd

lemma augmented_perform (h : d.perform g = some g') : g'.augmented = g.augmented := by
  obtain ⟨-, precedence, rfl⟩ | ⟨name, symbols, place, rule, -, hd⟩ := perform_cases h
  · rfl
  · obtain ⟨used, symbols', precedence, rfl, -⟩ := declare_ok hd
    obtain ⟨_, _, heq, -⟩ := insert_spec { g.quoting (literals symbols) with usedPrecedence := used } name symbols'
      precedence place.file place.line rule
    rw [heq]
    rfl

lemma overlap_perform (h : d.perform g = some g') (s : String) : g'.isTerminal s = true ∧ g'.isNonterminal s = true ↔
      g.isTerminal s = true ∧ g.isNonterminal s = true ∨ s ∈ d.clashes g := by
  obtain ⟨hc, precedence, rfl⟩ | ⟨name, symbols, place, rule, rfl, hd⟩ := perform_cases h
  · simp [hc, isTerminal, isNonterminal]
  · simp [overlap_declare hd s, clashes]

lemma registered_performAll (hg : g.Registered) (h : performAll g ds = some g') :
    g'.Registered ∧ g'.augmented = g.augmented := by
  induction ds generalizing g with
  | nil =>
    obtain rfl := Option.some.inj h
    exact ⟨hg, rfl⟩
  | cons d ds ih =>
    obtain ⟨g₁, hd, hds⟩ := Option.bind_eq_some_iff.mp h
    obtain ⟨hr, ha⟩ := ih (registered_perform hg hd) hds
    exact ⟨hr, ha.trans (augmented_perform hd)⟩

lemma disjoint_performAll (h : performAll g ds = some g') : (∀ s, g'.isTerminal s = true → g'.isNonterminal s = false) ↔
      (∀ s, g.isTerminal s = true → g.isNonterminal s = false) ∧ NeverClash g ds := by
  induction ds generalizing g with
  | nil =>
    obtain rfl := Option.some.inj h
    simp [NeverClash]
  | cons d ds ih =>
    obtain ⟨g₁, hd, hds⟩ := Option.bind_eq_some_iff.mp h
    have hstep : (∀ s, g₁.isTerminal s = true → g₁.isNonterminal s = false) ↔
        (∀ s, g.isTerminal s = true → g.isNonterminal s = false) ∧ d.clashes g = [] := by
      have hover := overlap_perform hd
      simp only [← Bool.not_eq_true, ← not_and, hover, not_or, forall_and, eq_nil_iff_forall_not_mem]
    rw [ih hds, hstep, and_assoc]
    simp [NeverClash, hd]

end Declaration

open Declaration

/-- The grammar that a new one becomes by declarations and at most one choice of the start symbol; a choice that is
refused changes nothing. -/
def ofDeclarations (ts : List String) (ds : List Declaration) (start : Option (Option String)) :
    Option (Grammar String) :=
  (performAll (ofTerminals ts) ds).map fun g =>
    match start with
    | none => g
    | some s =>
      match declareStart g s with
      | .ok g => g
      | .error _ => g

lemma ofDeclarations_cases {ts : List String} {ds : List Declaration} {start : Option (Option String)}
    {g' : Grammar String} (h : ofDeclarations ts ds start = some g') : ∃ g, performAll (ofTerminals ts) ds = some g ∧
      (g' = g ∨ ∃ s, g.isNonterminal s = true ∧ g' = g.setStart s) := by
  obtain ⟨g, hg, hstart⟩ := Option.map_eq_some_iff.mp h
  refine ⟨g, hg, ?_⟩
  subst hstart
  split
  · exact .inl rfl
  · split
    · rename_i g₁ hdeclare
      simp only [declareStart] at hdeclare
      split at hdeclare
      · cases hdeclare
      · split at hdeclare
        · rename_i s _ hs
          exact .inr ⟨s, hs, (Except.ok.inj hdeclare).symm⟩
        · cases hdeclare
    · exact .inl rfl

/-- Whatever is declared, productions are numbered, listed under their names and never repeated, and both tables together
list every use of a symbol. The tables are consistent exactly if no production quotes a symbol that is a nonterminal by
then. -/
theorem consistent_iff_neverClash {ts : List String} {ds : List Declaration} {start : Option (Option String)}
    {g : Grammar String} (h : ofDeclarations ts ds start = some g) :
    g.Registered ∧ (g.Consistent ↔ NeverClash (ofTerminals ts) ds) := by
  obtain ⟨g₁, hg, hend⟩ := ofDeclarations_cases h
  obtain ⟨hr, ha⟩ := registered_performAll (Registered.ofTerminals ts) hg
  have hempty : ∀ s, (ofTerminals ts : Grammar String).isTerminal s = true →
      (ofTerminals ts : Grammar String).isNonterminal s = false := fun _ _ => rfl
  have hdisjoint : (∀ s, g₁.isTerminal s = true → g₁.isNonterminal s = false) ↔ NeverClash (ofTerminals ts) ds := by
    rw [disjoint_performAll hg]
    exact and_iff_right hempty
  rcases hend with rfl | ⟨s, hs, rfl⟩
  · exact ⟨hr, by rw [hr.consistent_iff, hdisjoint]⟩
  · have hnon : ∀ a, (g₁.setStart s).isNonterminal a = g₁.isNonterminal a := by
      intro a
      rw [Bool.eq_iff_iff, isNonterminal, setStart, contains_update]
      refine ⟨?_, .inl⟩
      rintro (ha | rfl)
      · exact ha
      · exact hs
    have hstart := hr.setStart ha s
    refine ⟨hstart, ?_⟩
    rw [hstart.consistent_iff, ← hdisjoint]
    simp only [hnon]
    rfl

def signedSums : List Declaration :=
  [.precedence "+" "left" 1, .precedence "+" "right" 2, .production "sum" ["sum", "'+'", "sum"] ⟨"sums", 1⟩ "",
    .production "sum" ["'-'", "sum", "%prec", "'+'"] ⟨"sums", 2⟩ "", .production "sum" ["NUM"] ⟨"sums", 3⟩ ""]

theorem consistent_signedSums : ∃ g, ofDeclarations ["NUM"] signedSums (some none) = some g ∧ g.Consistent := by
  have hsome : (ofDeclarations ["NUM"] signedSums (some none)).isSome = true := by decide +kernel
  obtain ⟨g, hg⟩ := Option.isSome_iff_exists.mp hsome
  exact ⟨g, hg, (consistent_iff_neverClash hg).2.mpr (by decide +kernel)⟩

/-- A production that quotes its own name makes it a terminal and a nonterminal. -/
theorem quoted_name_in_both : ∃ g, ofDeclarations ["NUM"] [.production "x" ["'x'", "NUM"] ⟨"g", 0⟩ ""] none = some g ∧
    ¬ g.Consistent := by
  have hboth : (ofDeclarations ["NUM"] [.production "x" ["'x'", "NUM"] ⟨"g", 0⟩ ""] none).any
      (fun g => g.isTerminal "x" && g.isNonterminal "x") = true := by decide +kernel
  cases hg : ofDeclarations ["NUM"] [.production "x" ["'x'", "NUM"] ⟨"g", 0⟩ ""] none with
  | none => simp [hg] at hboth
  | some g =>
    rw [hg, Option.any_some, Bool.and_eq_true] at hboth
    refine ⟨g, rfl, fun h => ?_⟩
    simp [h.disjoint "x" hboth.1] at hboth

end Grammar

end LispKit
