import LispKit.Grammar.Declare
import LispKit.Grammar.Useful
import LispKit.Proofs.Grammar.First
import LispKit.Proofs.Grammar.Numbered
import Mathlib.Data.List.TakeWhile

/-! Declared grammars: whatever is declared, productions are numbered by their places, every symbol of a production has
its place in the grammar, and no symbol is one of the marks. -/

namespace LispKit

open List Registry

section Registry

variable {κ ν : Type} [BEq κ] [LawfulBEq κ]

@[simp] lemma Registry.getD_update_self (r : Registry κ ν) (k : κ) (default : ν) (f : ν → ν) :
    (r.update k default f).getD k default = f (r.getD k default) := by
  rw [update, getD, get?_insert_self, Option.getD_some]

lemma Registry.getD_update_of_ne (r : Registry κ ν) {k l : κ} (default : ν) (f : ν → ν) (h : k ≠ l) :
    (r.update k default f).getD l default = r.getD l default := by
  rw [update, getD, get?_insert_of_ne _ _ (beq_eq_false_iff_ne.mpr h), getD]

lemma Registry.contains_update (r : Registry κ ν) (k l : κ) (default : ν) (f : ν → ν) :
    (r.update l default f).contains k = true ↔ r.contains k = true ∨ k = l :=
  contains_insert r k l _

lemma Registry.contains_insertIfNew (r : Registry κ ν) (k l : κ) (v : ν) :
    (r.insertIfNew l v).contains k = true ↔ r.contains k = true ∨ k = l := by
  unfold insertIfNew
  split
  · rename_i h
    constructor
    · exact .inl
    · rintro (hk | rfl)
      · exact hk
      · exact h
  · exact contains_insert r k l v

end Registry

namespace Grammar

section Listed

variable {S : Type} [DecidableEq S] {g : Grammar S}

structure Listed (g : Grammar S) : Prop where
  number : ∀ {n pr}, g.productions[n]? = some pr → pr.number = n + 1
  rules : ∀ s, g.rules.getD s [] = (g.productions.filter fun pr => pr.name = s).map Production.number
  defined : ∀ {s}, g.isDefined s = true → ∃ pr ∈ g.productions, pr.name = s

namespace Listed

variable (h : g.Listed)

include h

lemma production?_number {pr : Production S} (hpr : pr ∈ g.productions) :
    ∃ n, pr.number = n + 1 ∧ g.production? pr.number = some pr := by
  obtain ⟨n, hn⟩ := mem_iff_getElem?.mp hpr
  exact ⟨n, h.number hn, by rw [h.number hn]; exact hn⟩

lemma nodup_numbers : (g.productions.map Production.number).Nodup := by
  have hrange : g.productions.map Production.number = List.range' 1 g.productions.length := by
    refine ext_getElem? fun n => ?_
    rw [getElem?_map]
    rcases Nat.lt_or_ge n g.productions.length with hn | hn
    · rw [getElem?_eq_getElem hn, Option.map_some, h.number (getElem?_eq_getElem hn), getElem?_range' hn]
      exact congrArg some (by omega)
    · rw [getElem?_eq_none hn, Option.map_none, getElem?_eq_none (by simpa using hn)]
  rw [hrange]
  exact nodup_range'

lemma numbered (ha : ∀ {p}, g.augmented = some p → p.number = 0) : g.Numbered where
  number {n p} hp := by
    cases n with
    | zero => exact ha hp
    | succ n => exact h.number hp
  nodup s := by
    rw [h.rules]
    exact (filter_sublist.map _).nodup h.nodup_numbers
  positive s hmem := by
    rw [h.rules] at hmem
    obtain ⟨pr, hpr, h0⟩ := mem_map.mp hmem
    obtain ⟨n, hn, -⟩ := h.production?_number (mem_filter.mp hpr).1
    omega
  name {s p} hp := by
    obtain ⟨n, hn, hp⟩ := mem_filterMap.mp hp
    rw [h.rules] at hn
    obtain ⟨pr, hpr, rfl⟩ := mem_map.mp hn
    obtain ⟨hpr, hname⟩ := mem_filter.mp hpr
    obtain ⟨-, -, hnumber⟩ := h.production?_number hpr
    rw [hnumber] at hp
    obtain rfl := Option.some.inj hp
    exact of_decide_eq_true hname
  mem {p} hp := by
    obtain ⟨-, -, hnumber⟩ := h.production?_number hp
    refine mem_filterMap.mpr ⟨p.number, ?_, hnumber⟩
    rw [h.rules]
    exact mem_map.mpr ⟨p, mem_filter.mpr ⟨hp, decide_eq_true rfl⟩, rfl⟩

end Listed

end Listed

section Insert

variable {S : Type} [DecidableEq S] {g : Grammar S} {name : S} {symbols : List S}

lemma foldl_use (number : Nat) (symbols : List S) (g : Grammar S) : ∃ ts ns,
    symbols.foldl (use number) g = { g with terminals := ts, nonterminals := ns } ∧
    (∀ s, ts.contains s = true ↔ g.isTerminal s = true) ∧
    ∀ s, ns.contains s = true ↔ g.isNonterminal s = true ∨ s ∈ symbols ∧ g.isTerminal s = false := by
  induction symbols generalizing g with
  | nil => exact ⟨g.terminals, g.nonterminals, rfl, fun _ => Iff.rfl, fun s => by simp [isNonterminal]⟩
  | cons a symbols ih =>
    obtain ⟨ts, ns, heq, ht, hn⟩ := ih (use number g a)
    by_cases ha : g.isTerminal a = true
    · have huse : use number g a = { g with terminals := g.terminals.update a [] (· ++ [number]) } := if_pos ha
      rw [huse] at heq ht hn
      have hterm : ∀ s, (g.terminals.update a [] (· ++ [number])).contains s = true ↔ g.isTerminal s = true := by
        intro s
        rw [contains_update]
        constructor
        · rintro (hs | rfl)
          · exact hs
          · exact ha
        · exact .inl
      refine ⟨ts, ns, by rw [foldl_cons, huse, heq], fun s => (ht s).trans (hterm s), fun s => ?_⟩
      have hfalse : Grammar.isTerminal { g with terminals := g.terminals.update a [] (· ++ [number]) } s =
          g.isTerminal s := Bool.eq_iff_iff.mpr (hterm s)
      rw [hn s, hfalse, mem_cons]
      constructor
      · rintro (hs | ⟨hs, hs'⟩)
        · exact .inl hs
        · exact .inr ⟨.inr hs, hs'⟩
      · rintro (hs | ⟨rfl | hs, hs'⟩)
        · exact .inl hs
        · rw [ha] at hs'
          cases hs'
        · exact .inr ⟨hs, hs'⟩
    · have huse : use number g a = { g with nonterminals := g.nonterminals.update a [] (· ++ [number]) } := if_neg ha
      rw [huse] at heq ht hn
      refine ⟨ts, ns, by rw [foldl_cons, huse, heq], ht, fun s => ?_⟩
      have hnon : Grammar.isNonterminal { g with nonterminals := g.nonterminals.update a [] (· ++ [number]) } s = true ↔
          g.isNonterminal s = true ∨ s = a := contains_update _ _ _ _ _
      rw [hn s, hnon, mem_cons]
      rw [Bool.not_eq_true] at ha
      constructor
      · rintro ((hs | rfl) | ⟨hs, hs'⟩)
        · exact .inl hs
        · exact .inr ⟨.inl rfl, ha⟩
        · exact .inr ⟨.inr hs, hs'⟩
      · rintro (hs | ⟨rfl | hs, hs'⟩)
        · exact .inl (.inl hs)
        · exact .inl (.inr rfl)
        · exact .inr ⟨hs, hs'⟩

lemma insert_spec (g : Grammar S) (name : S) (symbols : List S) (precedence : Precedence) (file : String) (line : Int)
    (rule : String) : ∃ ts ns, g.insert name symbols precedence file line rule =
      { g with
        terminals := ts
        nonterminals := ns
        productions := g.productions ++ [⟨g.size, name, symbols, precedence, file, line, rule⟩]
        rules := g.rules.update name [] (· ++ [g.size]) } ∧
      (∀ s, ts.contains s = true ↔ g.isTerminal s = true) ∧
      ∀ s, ns.contains s = true ↔ g.isNonterminal s = true ∨ s = name ∨ s ∈ symbols ∧ g.isTerminal s = false := by
  obtain ⟨ts, ns, heq, ht, hn⟩ := foldl_use g.size symbols { g with nonterminals := g.nonterminals.insertIfNew name [] }
  have hnon : ∀ s, (g.nonterminals.insertIfNew name []).contains s = true ↔ g.isNonterminal s = true ∨ s = name :=
    fun s => contains_insertIfNew _ _ _ _
  refine ⟨ts, ns, by rw [insert, heq], ht, fun s => (hn s).trans ?_⟩
  rw [isNonterminal, hnon s, or_assoc]
  rfl

lemma Listed.insert (h : g.Listed) (name : S) (symbols : List S) (precedence : Precedence) (file : String) (line : Int)
    (rule : String) : (g.insert name symbols precedence file line rule).Listed := by
  obtain ⟨ts, ns, heq, -, -⟩ := insert_spec g name symbols precedence file line rule
  rw [heq]
  refine ⟨?_, ?_, ?_⟩
  · intro n pr hpr
    rcases Nat.lt_or_ge n g.productions.length with hn | hn
    · exact h.number (by rwa [getElem?_append_left hn] at hpr)
    · rw [getElem?_append_right hn, getElem?_singleton] at hpr
      split at hpr
      · obtain rfl := Option.some.inj hpr
        have : g.size = g.productions.length + 1 := rfl
        change g.size = n + 1
        omega
      · cases hpr
  · intro s
    rw [filter_append, map_append]
    by_cases hs : name = s
    · subst hs
      rw [getD_update_self, h.rules]
      simp
    · rw [getD_update_of_ne _ _ _ hs, h.rules]
      simp [hs]
  · intro s hs
    rw [isDefined, contains_update] at hs
    rcases hs with hs | rfl
    · obtain ⟨pr, hpr, hname⟩ := h.defined hs
      exact ⟨pr, mem_append_left _ hpr, hname⟩
    · exact ⟨_, mem_append_right _ (mem_singleton.mpr rfl), rfl⟩

end Insert

section Declare

def Admissible (s : String) : Prop :=
  isIdentifier s = true ∨ s = precedenceMark ∨ s.length ≤ 1

instance (s : String) : Decidable (Admissible s) :=
  inferInstanceAs (Decidable (isIdentifier s = true ∨ s = precedenceMark ∨ s.length ≤ 1))

open Vocabulary

lemma not_admissible_startMark : ¬ Admissible startMark := by
  decide +kernel

lemma not_admissible_endMark : ¬ Admissible endMark := by
  decide +kernel

variable {s : String}

lemma Admissible.ne_startMark (h : Admissible s) : s ≠ startMark := by
  rintro rfl
  exact not_admissible_startMark h

lemma Admissible.ne_endMark (h : Admissible s) : s ≠ endMark := by
  rintro rfl
  exact not_admissible_endMark h

structure Declared (g : Grammar String) : Prop extends Listed g where
  augmented : g.augmented = none
  first : g.first = {}
  follow : g.follow = {}
  reductions : g.reductions = {}
  error : g.isTerminal errorMark = true
  name : ∀ pr ∈ g.productions, isIdentifier pr.name = true ∧ g.isNonterminal pr.name = true
  symbol : ∀ pr ∈ g.productions, ∀ s ∈ pr.symbols, Admissible s ∧ (g.isTerminal s = true ∨ g.isNonterminal s = true)
  nonterminal : ∀ {s}, g.isNonterminal s = true → Admissible s
  precedence : g.precedence = {} → ∀ pr ∈ g.productions, pr.precedence = .default

lemma contains_foldl_insertIfNew (ts : List String) (r : Registry String (List Nat)) (s : String) :
    (ts.foldl (fun r t => r.insertIfNew t []) r).contains s = true ↔ r.contains s = true ∨ s ∈ ts := by
  induction ts generalizing r with
  | nil => simp
  | cons t ts ih => rw [foldl_cons, ih, contains_insertIfNew, mem_cons, or_assoc]

lemma declared_ofTerminals (ts : List String) : Declared (ofTerminals ts) where
  number h := by cases h
  rules _ := rfl
  defined h := by cases h
  augmented := rfl
  first := rfl
  follow := rfl
  reductions := rfl
  error := by
    rw [isTerminal, ofTerminals, contains_foldl_insertIfNew]
    exact .inr (mem_append_right _ (mem_singleton.mpr rfl))
  name _ h := by cases h
  symbol _ h := by cases h
  nonterminal h := by cases h
  precedence _ _ h := by cases h

def DeclareFailure.isDuplicate : DeclareFailure → Bool
  | .invalid (.duplicate ..) => true
  | _ => false

def literal? (s : String) : Option String :=
  if isQuoted s then Text.Literal.value? s else none

def literals (symbols : List String) : List String :=
  symbols.filterMap literal?

def resolved (s : String) : String :=
  (literal? s).getD s

def isAccepted (s : String) : Bool :=
  !s.isEmpty &&
    match literal? s with
    | some literal => literal.length ≤ 1
    | none => isIdentifier s || s = precedenceMark

def quoting (g : Grammar String) (quoted : List String) : Grammar String :=
  { g with terminals := quoted.foldl (fun r s => r.insertIfNew s []) g.terminals }

variable {g g' : Grammar String} {symbols symbols' : List String} {place : Place} {name rule : String}

lemma Declared.setPrecedence (h : g.Declared) {symbol associativity : String} {level : Int}
    (hg : setPrecedence g symbol associativity level = .ok g') : g'.Declared := by
  unfold Grammar.setPrecedence at hg
  split at hg
  · cases hg
  · rename_i hempty
    split at hg
    · cases hg
    · split at hg
      · cases hg
      · obtain rfl := Except.ok.inj hg
        refine ⟨⟨h.number, h.rules, h.defined⟩, h.augmented, h.first, h.follow, h.reductions, h.error, h.name,
          h.symbol, h.nonterminal, ?_⟩
        intro _ pr hpr
        simp only [h.augmented, Option.isSome_none, Bool.false_or, Bool.not_eq_true', Bool.not_eq_false,
          List.isEmpty_iff] at hempty
        rw [show g.productions = [] from hempty] at hpr
        cases hpr

lemma resolveSymbols_cons (s : String) (rest : List String) (g : Grammar String) :
    (isAccepted s = true ∧ resolveSymbols place name (s :: rest) g =
      ((resolveSymbols place name rest (g.quoting (literals [s]))).1.map (resolved s :: ·),
        (resolveSymbols place name rest (g.quoting (literals [s]))).2)) ∨
    isAccepted s = false ∧ ∃ e, e.isDuplicate = false ∧ resolveSymbols place name (s :: rest) g = (.error e, g) := by
  have hplain : g.quoting [] = g := rfl
  have hquoting : ∀ s, g.quoting [s] = { g with terminals := g.terminals.insertIfNew s [] } := fun _ => rfl
  simp only [resolveSymbols, isAccepted, resolved, literals, literal?, filterMap_cons, filterMap_nil]
  cases s.isEmpty with
  | true => exact .inr ⟨rfl, _, rfl, rfl⟩
  | false =>
    cases isQuoted s
    case' true => cases Text.Literal.value? s
    case true.some literal =>
      by_cases hlen : 1 < literal.length
      · exact .inr ⟨by simpa using hlen, _, rfl, by simp [hlen]; rfl⟩
      · refine .inl ⟨by simpa using hlen, ?_⟩
        simp only [Bool.false_eq_true, if_false, if_true, hlen, Option.getD_some, hquoting]
        rcases resolveSymbols place name rest { g with terminals := g.terminals.insertIfNew literal [] } with ⟨_ | _, _⟩ <;>
          rfl
    all_goals
      cases isIdentifier s || decide (s = precedenceMark) with
      | false => exact .inr ⟨rfl, _, rfl, rfl⟩
      | true =>
        refine .inl ⟨rfl, ?_⟩
        simp only [Bool.false_eq_true, if_false, if_true, hplain, Option.getD_none]
        rcases resolveSymbols place name rest g with ⟨_ | _, _⟩ <;> rfl

lemma quoting_append (g : Grammar String) (ss ts : List String) : (g.quoting ss).quoting ts = g.quoting (ss ++ ts) := by
  simp only [quoting, foldl_append]

lemma literals_cons (s : String) (rest : List String) : literals (s :: rest) = literals [s] ++ literals rest :=
  filterMap_append (l := [s])

/-- What is quoted before the first symbol that is refused has become a terminal. -/
lemma resolveSymbols_snd (place : Place) (name : String) (symbols : List String) (g : Grammar String) :
    (resolveSymbols place name symbols g).2 = g.quoting (literals (symbols.takeWhile isAccepted)) := by
  induction symbols generalizing g with
  | nil => rfl
  | cons s rest ih =>
    obtain ⟨hs, heq⟩ | ⟨hs, e, -, heq⟩ := resolveSymbols_cons s rest g
    · rw [heq, ih, quoting_append, takeWhile_cons_of_pos hs, ← literals_cons]
    · rw [heq, takeWhile_cons_of_neg (by simp [hs])]
      rfl

lemma resolveSymbols_fst (h : (resolveSymbols place name symbols g).1 = .ok symbols') :
    (∀ s ∈ symbols, isAccepted s = true) ∧ symbols' = symbols.map resolved := by
  induction symbols generalizing g symbols' with
  | nil => exact ⟨forall_mem_nil _, (Except.ok.inj h).symm⟩
  | cons s rest ih =>
    obtain ⟨hs, heq⟩ | ⟨hs, e, -, heq⟩ := resolveSymbols_cons s rest g
    · rw [heq] at h
      cases hrest : (resolveSymbols place name rest (g.quoting (literals [s]))).1 with
      | error e =>
        rw [hrest] at h
        cases h
      | ok more =>
        obtain ⟨hall, rfl⟩ := ih hrest
        rw [hrest] at h
        exact ⟨forall_mem_cons.mpr ⟨hs, hall⟩, (Except.ok.inj h).symm⟩
    · rw [heq] at h
      cases h

lemma resolveSymbols_ok (h : resolveSymbols place name symbols g = (.ok symbols', g')) :
    (∀ s ∈ symbols, isAccepted s = true) ∧ symbols' = symbols.map resolved ∧ g' = g.quoting (literals symbols) := by
  obtain ⟨hall, hsymbols⟩ := resolveSymbols_fst (congrArg Prod.fst h)
  have hsnd := resolveSymbols_snd place name symbols g
  rw [h, takeWhile_eq_self_iff.mpr hall] at hsnd
  exact ⟨hall, hsymbols, hsnd⟩

lemma admissible_resolved (h : isAccepted s = true) : Admissible (resolved s) := by
  rw [isAccepted, Bool.and_eq_true] at h
  rw [resolved]
  cases hs : literal? s with
  | some literal =>
    rw [hs] at h
    exact .inr (.inr (of_decide_eq_true h.2))
  | none =>
    rw [hs] at h
    rw [Bool.or_eq_true, decide_eq_true_eq] at h
    exact h.2.imp_right .inl

lemma isTerminal_quoting (quoted : List String) (s : String) :
    (g.quoting quoted).isTerminal s = true ↔ g.isTerminal s = true ∨ s ∈ quoted :=
  contains_foldl_insertIfNew quoted g.terminals s

def precedenceName? (symbols : List String) : Option String :=
  match symbols.reverse with
  | last :: mark :: _ => if mark = precedenceMark then some last else none
  | _ => none

def newlyUsed (g : Grammar String) (symbols : List String) : List String :=
  (precedenceName? symbols).toList.filter (!g.usedPrecedence.contains ·)

lemma newlyUsed_of_unmarked (h : symbols.contains precedenceMark = false) : g.newlyUsed symbols = [] := by
  rw [newlyUsed, precedenceName?]
  split
  · rename_i last mark front hrev
    rw [if_neg, Option.toList_none, filter_nil]
    rintro rfl
    have hmem : precedenceMark ∈ symbols.reverse := hrev ▸ mem_cons_of_mem _ mem_cons_self
    rw [contains_iff_mem.mpr (mem_reverse.mp hmem)] at h
    cases h
  · rfl

lemma resolvePrecedence_ok {precedence : Precedence}
    (h : resolvePrecedence g place symbols = .ok (precedence, symbols', g')) :
    g' = { g with usedPrecedence := g.usedPrecedence ++ g.newlyUsed symbols } ∧ (∀ s ∈ symbols', s ∈ symbols) ∧
      (g.precedence = {} → precedence = .default) := by
  unfold resolvePrecedence at h
  split at h
  · split at h
    · rename_i last mark front hrev
      split at h
      · cases h
      · split at h
        · cases h
        · rename_i hmark
          split at h
          · cases h
          · rename_i p hp
            obtain ⟨rfl, hrest⟩ := Prod.mk.inj (Except.ok.inj h)
            obtain ⟨rfl, rfl⟩ := Prod.mk.inj hrest
            refine ⟨?_, fun s hs => ?_, fun hnone => ?_⟩
            · simp only [newlyUsed, precedenceName?, hrev, if_pos (not_not.mp hmark)]
              cases hused : g.usedPrecedence.contains last <;> simp_all
            · rw [← mem_reverse, hrev]
              exact mem_cons_of_mem _ (mem_cons_of_mem _ (mem_reverse.mp hs))
            · rw [hnone] at hp
              cases hp
    · cases h
  · rename_i hmark
    rw [newlyUsed_of_unmarked (Bool.eq_false_iff.mpr hmark), append_nil]
    split at h
    · obtain ⟨rfl, hrest⟩ := Prod.mk.inj (Except.ok.inj h)
      obtain ⟨rfl, rfl⟩ := Prod.mk.inj hrest
      exact ⟨rfl, fun _ hs => hs, fun _ => rfl⟩
    · obtain ⟨rfl, hrest⟩ := Prod.mk.inj (Except.ok.inj h)
      obtain ⟨rfl, rfl⟩ := Prod.mk.inj hrest
      refine ⟨rfl, fun _ hs => hs, fun hnone => ?_⟩
      rw [precedenceOf, hnone]
      rfl

lemma declare_ok (h : declare g name symbols place rule = (.ok (), g')) : ∃ used symbols' precedence,
    g' = Grammar.insert { g.quoting (literals symbols) with usedPrecedence := used } name symbols' precedence place.file
      place.line rule ∧
    g.isTerminal name = false ∧ isIdentifier name = true ∧ (∀ s ∈ symbols', Admissible s) ∧
    (g.precedence = {} → precedence = .default) ∧ ∀ p ∈ g.productions, ¬ (p.name = name ∧ p.symbols = symbols') := by
  unfold declare at h
  split at h
  · cases (Prod.mk.inj h).1
  · rename_i hterm
    split at h
    · cases (Prod.mk.inj h).1
    · rename_i hname
      split at h
      · cases (Prod.mk.inj h).1
      · rename_i symbols₁ g₁ hsymbols
        obtain ⟨haccepted, rfl, rfl⟩ := resolveSymbols_ok hsymbols
        split at h
        · cases (Prod.mk.inj h).1
        · rename_i precedence symbols₂ g₂ hprecedence
          obtain ⟨rfl, hsub, hdefault⟩ := resolvePrecedence_ok hprecedence
          split at h
          · cases (Prod.mk.inj h).1
          · rename_i hfind
            obtain ⟨-, rfl⟩ := Prod.mk.inj h
            refine ⟨_, symbols₂, precedence, rfl, by simpa using hterm, by simpa using hname, fun s hs => ?_, hdefault,
              fun p hp hsame => ?_⟩
            · obtain ⟨a, ha, rfl⟩ := mem_map.mp (hsub s hs)
              exact admissible_resolved (haccepted a ha)
            · simp only [findProduction, find?_eq_none] at hfind
              simpa [hsame] using hfind p hp

lemma Declared.declare (h : g.Declared) (hg : declare g name symbols place rule = (.ok (), g')) : g'.Declared := by
  obtain ⟨used, symbols', precedence, rfl, -, hname, hadm, hdefault, -⟩ := declare_ok hg
  let g₁ := { g.quoting (literals symbols) with usedPrecedence := used }
  have hlisted : Listed g₁ := ⟨h.number, h.rules, h.defined⟩
  have hinsert := hlisted.insert name symbols' precedence place.file place.line rule
  obtain ⟨ts', ns, heq, ht, hn⟩ := insert_spec g₁ name symbols' precedence place.file place.line rule
  rw [heq] at hinsert ⊢
  have hterm : ∀ {s}, g.isTerminal s = true → ts'.contains s = true :=
    fun hs => (ht _).mpr ((isTerminal_quoting _ _).mpr (.inl hs))
  have hnon : ∀ {s}, g.isNonterminal s = true → ns.contains s = true := fun hs => (hn _).mpr (.inl hs)
  refine ⟨hinsert, h.augmented, h.first, h.follow, h.reductions, hterm h.error, ?_, ?_, ?_, ?_⟩
  · intro pr hpr
    rcases mem_append.mp hpr with hpr | hpr
    · exact ⟨(h.name pr hpr).1, hnon (h.name pr hpr).2⟩
    · obtain rfl := mem_singleton.mp hpr
      exact ⟨hname, (hn _).mpr (.inr (.inl rfl))⟩
  · intro pr hpr s hs
    rcases mem_append.mp hpr with hpr | hpr
    · exact ⟨(h.symbol pr hpr s hs).1, (h.symbol pr hpr s hs).2.imp hterm hnon⟩
    · obtain rfl := mem_singleton.mp hpr
      refine ⟨hadm s hs, ?_⟩
      cases hs' : g₁.isTerminal s with
      | true => exact .inl ((ht s).mpr hs')
      | false => exact .inr ((hn s).mpr (.inr (.inr ⟨hs, hs'⟩)))
  · intro s hs
    rcases (hn s).mp hs with hs | rfl | ⟨hs, -⟩
    · exact h.nonterminal hs
    · exact .inl hname
    · exact hadm s hs
  · intro hnone pr hpr
    rcases mem_append.mp hpr with hpr | hpr
    · exact h.precedence hnone pr hpr
    · obtain rfl := mem_singleton.mp hpr
      exact hdefault hnone

end Declare

section Ready

variable {S : Type} [DecidableEq S] [Vocabulary S] {g : Grammar S} {p pr : Production S} {start : S}

open Vocabulary

structure Ready (g : Grammar S) (p : Production S) (start : S) : Prop where
  numbered : g.Numbered
  augmented : g.augmented = some p
  first : p.name = startMark ∧ p.symbols = [start]
  start : g.isNonterminal start = true
  name : ∀ {pr}, pr ∈ g.productions → pr.name ≠ startMark ∧ g.isNonterminal pr.name = true
  symbol : ∀ {pr}, pr ∈ g.all → ∀ {s}, s ∈ pr.symbols → g.isTerminal s = true ∨ g.isNonterminal s = true
  unmarked : ∀ {pr}, pr ∈ g.all → ∀ {s}, s ∈ pr.symbols → s ≠ startMark ∧ s ≠ endMark
  defined : ∀ {s}, g.isNonterminal s = true → ∃ pr ∈ g.productions, pr.name = s
  inner : ∀ {pr}, pr ∈ g.all → pr.name ≠ endMark

lemma Ready.mem_all (h : g.Ready p start) : pr ∈ g.all ↔ pr = p ∨ pr ∈ g.productions := by
  rw [Grammar.all, h.augmented]
  exact mem_cons

lemma Declared.ready {g : Grammar String} (h : g.Declared) {start : String} (hstart : g.isNonterminal start = true)
    (hdefined : ∀ s ∈ (g.setStart start).nonterminals.keys, (g.setStart start).isDefined s = true) :
    (g.setStart start).Ready ⟨0, startMark, [start], .default, "", 0, ""⟩ start := by
  have hnon : ∀ {s}, (g.setStart start).isNonterminal s = true ↔ g.isNonterminal s = true := by
    intro s
    rw [isNonterminal, setStart, contains_update]
    constructor
    · rintro (hs | rfl)
      · exact hs
      · exact hstart
    · exact .inl
  have hall : ∀ {pr}, pr ∈ (g.setStart start).all → ∀ {s}, s ∈ pr.symbols →
      Admissible s ∧ (g.isTerminal s = true ∨ g.isNonterminal s = true) := by
    intro pr hpr s hs
    rcases mem_cons.mp hpr with rfl | hpr
    · obtain rfl := mem_singleton.mp hs
      exact ⟨h.nonterminal hstart, .inr hstart⟩
    · exact h.symbol pr hpr s hs
  refine ⟨Listed.numbered ⟨h.number, h.rules, h.defined⟩ ?_, rfl, ⟨rfl, rfl⟩, hnon.mpr hstart, ?_, ?_, ?_, ?_, ?_⟩
  · rintro p hp
    obtain rfl := Option.some.inj hp
    rfl
  · intro pr hpr
    exact ⟨Admissible.ne_startMark (.inl (h.name pr hpr).1), hnon.mpr (h.name pr hpr).2⟩
  · intro pr hpr s hs
    exact (hall hpr hs).2.imp_right hnon.mpr
  · intro pr hpr s hs
    exact ⟨(hall hpr hs).1.ne_startMark, (hall hpr hs).1.ne_endMark⟩
  · intro s hs
    exact h.defined (hdefined s ((contains_iff_mem_keys _ _).mp hs))
  · intro pr hpr
    rcases mem_cons.mp hpr with rfl | hpr
    · exact show (startMark : String) ≠ endMark by decide
    · exact Admissible.ne_endMark (.inl (h.name pr hpr).1)

end Ready

end Grammar

end LispKit
