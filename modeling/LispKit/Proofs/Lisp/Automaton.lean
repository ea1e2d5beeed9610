import LispKit.Lisp.Reader
import LispKit.Proofs.Parser.Complete

/-! The automaton of the language's grammar: its tables follow the grammar, and no reduction is in doubt except that
of a name that is defined. -/

namespace LispKit.Lisp

open Vocabulary Collection Lookahead List Registry

def whole : Production Symbol := ⟨0, .start, [.program], .default, "", 0, ""⟩

def numbered : List (Production Symbol) :=
  productions.zipIdx.map fun (r, k) => ⟨k + 1, r.1, r.2, .default, "", k, ""⟩

def nonterminals : List Symbol :=
  distinct ((productions.flatMap fun r => r.1 :: r.2).filter (· ∉ Symbol.terminals))

def vanishing : List Symbol := [.empty, .references, .arguments]

def onlyNext : Symbol → Option Symbol
  | .start | .program | .statements => some .endOfInput
  | .expressions | .references | .arguments | .empty => some .close
  | _ => none

section Grammar

deriving instance DecidableEq for Production

@[mk_iff] structure Surveyed : Prop where
  rules : numbered.map (fun p => (p.name, p.symbols)) = productions
  apart : ∀ s ∈ Symbol.terminals ++ [.error, .endOfInput, .start], s ∉ nonterminals
  known : ∀ q ∈ whole :: numbered, ∀ t ∈ q.symbols, t ∈ Symbol.terminals ∨ t ∈ nonterminals
  inner : ∀ q ∈ whole :: numbered, q.name ≠ .endOfInput ∧ ∀ t ∈ q.symbols, t ≠ .start ∧ t ≠ .endOfInput
  name : ∀ q ∈ numbered, q.name ∈ nonterminals ∧ q.name ≠ .start
  start : .program ∈ nonterminals
  defined : ∀ s ∈ nonterminals, s ∈ distinct (productions.map Prod.fst) ∧ ∃ q ∈ numbered, q.name = s
  nonempty : numbered ≠ []
  flat : ∀ q ∈ whole :: numbered, q.precedence = .default
  line : ∀ q ∈ numbered, q.line + 1 = q.number
  identifier : ∀ q ∈ numbered, q.name = .functionName ∨ q.name = .reference → q.symbols = [.identifier]
  vanishing : ∀ s ∈ vanishing, s ∈ nonterminals
  vanishes : ∀ q ∈ numbered, (∀ s ∈ q.symbols, s ∈ Lisp.vanishing) → q.name ∈ Lisp.vanishing
  outer : ∀ q ∈ whole :: numbered, ∀ k < q.symbols.length, (∀ a ∈ q.symbols.drop (k + 1), a ∈ Lisp.vanishing) →
    ∀ s ∈ q.symbols[k]?, ∀ v ∈ onlyNext s, onlyNext q.name = some v

set_option synthInstance.maxSize 512 in
instance : Decidable Surveyed := decidable_of_iff' _ surveyed_iff

lemma surveyed : Surveyed := by
  decide +kernel

lemma grammar_parts : grammar.productions = numbered ∧ grammar.terminals.keys = Symbol.terminals ++ [.error] ∧
    grammar.nonterminals.keys = nonterminals ∧ grammar.rules.entries = (distinct (productions.map Prod.fst)).map
      (fun s => (s, (numbered.filter (·.name = s)).map Production.number)) ∧
    grammar.first.entries = [] ∧ grammar.follow.entries = [] ∧ grammar.precedence.entries = [] := by
  decide +kernel

lemma grammar_augmented : grammar.augmented = some whole := rfl

lemma grammar_productions : grammar.productions = numbered := grammar_parts.1

lemma grammar_rules : grammar.rules.entries = (distinct (productions.map Prod.fst)).map
    (fun s => (s, (numbered.filter (·.name = s)).map Production.number)) := grammar_parts.2.2.2.1

lemma grammar_nullable : grammar.nullable = vanishing := by
  decide +kernel

lemma rulesOf_grammar : rulesOf grammar = productions := by
  rw [rulesOf, grammar_productions]
  exact surveyed.rules

variable {p : Production Symbol}

lemma grammar_all : grammar.all = whole :: numbered := by
  rw [Grammar.all, grammar_augmented, Option.toList_some, singleton_append, grammar_productions]

variable {s : Symbol}

lemma isTerminal_iff : grammar.isTerminal s = true ↔ s ∈ Symbol.terminals ∨ s = .error := by
  rw [Grammar.isTerminal, contains_iff_mem_keys, grammar_parts.2.1, mem_append, mem_singleton]

lemma isNonterminal_iff : grammar.isNonterminal s = true ↔ s ∈ nonterminals := by
  rw [Grammar.isNonterminal, contains_iff_mem_keys, grammar_parts.2.2.1]

lemma symbol_mem (hp : p ∈ grammar.all) (hs : s ∈ p.symbols) :
    s ∈ Symbol.terminals ∨ s ∈ nonterminals :=
  surveyed.known p (grammar_all ▸ hp) s hs

lemma grammar_numbered : grammar.Numbered := by
  apply Grammar.numbered_of_entries
  · decide
  · rw [grammar_productions]
    decide +kernel
  · have hget : grammar.production? = fun n => if n = 0 then some whole else numbered[n - 1]? := by
      funext n
      cases n with
      | zero => rfl
      | succ n =>
        rw [Grammar.production?, grammar_productions]
        rfl
    rw [grammar_rules, hget]
    decide +kernel
  · rw [grammar_productions]
    simp only [Registry.getD, Registry.get?, grammar_rules]
    decide +kernel

lemma grammar_sorted : Sorted grammar where
  name hp := by
    rw [grammar_productions] at hp
    exact isNonterminal_iff.mpr (surveyed.name _ hp).1
  symbol hp s hs := (symbol_mem hp hs).imp (fun h => isTerminal_iff.mpr (.inl h)) isNonterminal_iff.mpr
  apart hs := by
    rw [← Bool.not_eq_true, isNonterminal_iff]
    apply surveyed.apart
    rcases isTerminal_iff.mp hs with hs | rfl
    · exact mem_append_left _ hs
    · decide
  vanishing hs := by
    rw [grammar_nullable] at hs
    exact isNonterminal_iff.mpr (surveyed.vanishing _ hs)
  vanishes hp hs := by
    rw [grammar_productions] at hp
    rw [grammar_nullable] at hs ⊢
    exact surveyed.vanishes _ hp hs

lemma grammar_flat : grammar.Flat where
  precedence := eq_empty grammar_parts.2.2.2.2.2.2
  production p hp := surveyed.flat p (grammar_all ▸ hp)

lemma grammar_known : grammar.Known where
  first := eq_empty grammar_parts.2.2.2.2.1
  follow := eq_empty grammar_parts.2.2.2.2.2.1
  defined s hs := by
    rw [grammar_parts.2.2.1] at hs
    rw [Grammar.isDefined, contains_iff_mem_keys, Registry.keys, grammar_rules, List.map_map]
    exact mem_map.mpr ⟨s, (surveyed.defined s hs).1, rfl⟩
  symbol p hp s hs := grammar_sorted.symbol (mem_append_right _ hp) hs
  nonempty := by
    rw [grammar_productions]
    exact surveyed.nonempty

end Grammar

section States

def extra : Symbol → Nat
  | .functionName | .function | .argument | .reference | .open_ => 3
  | _ => 0

@[mk_iff] structure Orderly (st : ItemSet Symbol) : Prop where
  final : (∃ i ∈ st.items, i.name = .start ∧ i.dot = 1) → st.items.length = 1
  shift : (∃ i ∈ st.items, i.next?.isSome) → ∃ i ∈ st.items, ∃ s ∈ i.next?, s ∈ Symbol.terminals
  lifted : (∃ i ∈ st.items, i.symbols.isEmpty) → ∀ i ∈ st.kernel, ∀ s ∈ i.last?, extra s = 3
  only : ∀ i ∈ st.kernel, ∀ s ∈ i.last?, ∀ u ∈ onlyNext s, ∀ j ∈ st.items, ∀ t ∈ j.next?, t = u
  apart : ∀ i ∈ st.items, i.isComplete → ∀ j ∈ st.items, ∀ s ∈ j.next?, ∃ u ∈ onlyNext i.name, u ≠ s
  reduce : ∀ i ∈ st.items, i.isComplete → ∀ j ∈ st.items, j.isComplete →
    i.number ≤ j.number ∨ i.name = .functionName ∧ j.name = .reference
  called : (∃ i ∈ st.items, i.name = .call ∧ i.next? = some .functionName) → ∀ i ∈ st.items, i.name ≠ .reference

set_option synthInstance.maxSize 512 in
instance : DecidablePred Orderly := fun st => decidable_of_iff' _ (orderly_iff st)

def outline : Grammar Symbol where
  augmented := some whole
  productions := numbered
  rules := ⟨(distinct (productions.map Prod.fst)).map
    fun s => (s, (numbered.filter (·.name = s)).map Production.number)⟩

lemma closure_grammar (kernel : List (Item Symbol)) : closure grammar kernel = closure outline kernel := by
  have hproductions : outline.productions = grammar.productions := by rw [grammar_productions, outline]
  have hrules : outline.rules.entries = grammar.rules.entries := by rw [grammar_rules, outline]
  have haugmented : outline.augmented = grammar.augmented := by rw [grammar_augmented, outline]
  have hget : grammar.production? = outline.production? := by
    funext n
    simp only [Grammar.production?, hproductions, haugmented]
  apply closure_congr
  · intro s
    simp only [Grammar.productionsOf, hget, Registry.getD, Registry.get?, hrules]
  · simp only [Grammar.size, hproductions]

def dottedAt (d : Nat) (numbers : List Nat) : List (Item Symbol) :=
  numbers.filterMap fun n => (outline.production? n).map fun p => p.dotted d

def forms : List Nat := [19, 20, 21, 22, 23, 24, 25, 26, 27, 28, 29, 35, 42, 43, 44]

def joint : List (List (Item Symbol)) :=
  [dottedAt 1 [2, 3], dottedAt 1 ([7, 8, 30, 31] ++ forms), dottedAt 1 forms, dottedAt 2 [30, 31], dottedAt 1 [32, 36],
    dottedAt 1 [17, 18]]

def kernels : List (List (Item Symbol)) :=
  [whole.dotted 0] :: joint ++
  (whole :: numbered).flatMap fun p => (List.range p.symbols.length).map fun d => [p.dotted (d + 1)]

@[mk_iff] structure Fine (kernel : List (Item Symbol)) : Prop where
  belongs : ∀ i ∈ kernel, ∃ p ∈ whole :: numbered, i = p.dotted i.dot ∧ i.dot ≤ p.symbols.length
  moves : ∀ i ∈ closure outline kernel, ∀ s ∈ i.next?, moved (closure outline kernel) s = [i.advance] ∨
    ∃ k ∈ joint, sameKernel k (moved (closure outline kernel) s) = true
  orderly : Orderly ⟨kernel, closure outline kernel⟩

instance : DecidablePred Fine := fun k => decidable_of_iff' _ (fine_iff k)

lemma kernels_fine : ∀ k ∈ kernels, Fine k := by
  decide +kernel

lemma belongs_of_fine {kernel : List (Item Symbol)} (h : kernel ∈ kernels) {i : Item Symbol} (hi : i ∈ kernel) :
    Belongs grammar i := by
  obtain ⟨p, hp, heq, hdot⟩ := (kernels_fine kernel h).belongs i hi
  exact ⟨p, grammar_all ▸ hp, i.dot, hdot, heq⟩

lemma kernels_family : Family grammar whole kernels where
  first := mem_cons_self
  moved k hk s hne := by
    rw [closure_grammar] at hne ⊢
    obtain ⟨i, hi⟩ := exists_mem_of_ne_nil _ hne
    obtain ⟨j, hj, -⟩ := mem_map.mp hi
    obtain ⟨hj, hs⟩ := mem_filter.mp hj
    have hclosure : ∀ i ∈ closure outline k, Belongs grammar i := by
      intro i hi
      rw [← closure_grammar] at hi
      exact belongs_closure grammar_numbered (fun _ => belongs_of_fine hk) hi
    rcases (kernels_fine k hk).moves j hj s (of_decide_eq_true hs) with hone | ⟨k', hk', hsame⟩
    · obtain ⟨p, hp, d, -, rfl⟩ := hclosure j hj
      obtain ⟨hd, -⟩ := List.getElem?_eq_some_iff.mp (of_decide_eq_true hs)
      rw [hone]
      exact mem_append_right _ (mem_flatMap.mpr ⟨p, grammar_all ▸ hp, mem_map.mpr ⟨d, mem_range.mpr hd, rfl⟩⟩)
    · have hk' : k' ∈ kernels := mem_append_left _ (mem_cons_of_mem _ hk')
      rwa [← eq_of_sameKernel grammar_numbered (fun _ => belongs_of_fine hk') (fun _ => belongs_moved hclosure) hsame]

lemma kernels_length : kernels.length ≤ stateLimit grammar := by
  rw [stateLimit, itemCount, Grammar.all, grammar_augmented, grammar_productions]
  decide +kernel

@[irreducible] def automaton : Collection Symbol := build grammar whole

lemma automaton_eq : automaton = build grammar whole := by
  unfold automaton
  rfl

lemma automaton_explored : Explored grammar whole automaton := by
  rw [automaton_eq]
  exact kernels_family.explored kernels_length grammar_numbered grammar_augmented

lemma orderly_of_states {q : Nat} {st : ItemSet Symbol} (h : automaton.states[q]? = some st) : Orderly st := by
  rw [automaton_eq] at h
  have hwithin := (kernels_family.within kernels_length).1
  have hmem := mem_of_getElem? h
  have horder := (kernels_fine st.kernel (hwithin.mem st hmem)).orderly
  rwa [← closure_grammar, ← hwithin.items st hmem] at horder

lemma exists_orderly {q : Nat} {i : Item Symbol} (hi : i ∈ automaton.itemsOf q) :
    ∃ st, automaton.itemsOf q = st.items ∧ Orderly st := by
  obtain ⟨st, hst, -⟩ := automaton_explored.state_of_mem hi
  exact ⟨st, itemsOf_eq hst, orderly_of_states hst⟩

lemma symbol_of_goto? {q r : Nat} {s : Symbol} (h : automaton.goto? q s = some r) :
    s ∈ Symbol.terminals ∨ s ∈ nonterminals := by
  obtain ⟨i, hi, hs⟩ := automaton_explored.exists_expected h
  obtain ⟨pr, hpr, d, -, rfl⟩ := automaton_explored.belongs hi
  exact symbol_mem hpr (mem_of_getElem? hs)

lemma goto?_eq_none {s : Symbol} (hs : s ∈ [Symbol.error, .endOfInput]) (q : Nat) : automaton.goto? q s = none := by
  have hterm : ∀ t ∈ [Symbol.error, .endOfInput], t ∉ Symbol.terminals := by decide
  have hmore : ∀ t ∈ [Symbol.error, .endOfInput], t ∈ Symbol.terminals ++ [.error, .endOfInput, .start] := by decide
  cases hr : automaton.goto? q s with
  | none => rfl
  | some r =>
    rcases symbol_of_goto? hr with h | h
    · exact absurd h (hterm s hs)
    · exact absurd h (surveyed.apart s (hmore s hs))

lemma grammar_ready : grammar.Ready whole .program where
  numbered := grammar_numbered
  augmented := grammar_augmented
  first := ⟨rfl, rfl⟩
  start := isNonterminal_iff.mpr surveyed.start
  name hp := ⟨(surveyed.name _ (grammar_productions ▸ hp)).2, grammar_sorted.name hp⟩
  symbol := grammar_sorted.symbol
  unmarked hp s hs := (surveyed.inner _ (grammar_all ▸ hp)).2 s hs
  defined hs := by
    rw [grammar_productions]
    exact (surveyed.defined _ (isNonterminal_iff.mp hs)).2
  inner hp := (surveyed.inner _ (grammar_all ▸ hp)).1

lemma automaton_plain : LispKit.Plain grammar whole automaton .program where
  toReady := grammar_ready
  explored := automaton_explored
  sorted := grammar_sorted
  flat := grammar_flat
  final hi := by
    obtain ⟨st, hst, horder⟩ := exists_orderly hi
    rw [hst] at hi ⊢
    obtain ⟨i, hone⟩ := length_eq_one_iff.mp (horder.final ⟨_, hi, rfl, rfl⟩)
    rw [hone] at hi ⊢
    rw [mem_singleton.mp hi]

lemma tables_serve : Parser.Serves tables grammar whole automaton .program := by
  have hplain := automaton_plain
  rw [automaton_eq] at hplain ⊢
  exact Parser.serves_ofGrammar grammar_known hplain

lemma tables_steady : Parser.Steady tables grammar whole automaton .program where
  plain := automaton_plain
  serves := tables_serve
  marks := by decide
  alien := goto?_eq_none mem_cons_self
  ending := goto?_eq_none (by decide)
  inner hr := by
    obtain ⟨i, hi, hs⟩ := automaton_explored.exists_expected hr
    obtain ⟨st, hst, horder⟩ := exists_orderly hi
    rw [hst] at hi
    obtain ⟨j, hj, t, ht, hterm⟩ := horder.shift ⟨i, hi, by rw [hs]; rfl⟩
    rw [← hst] at hj
    obtain ⟨pr, -, d, -, rfl⟩ := automaton_explored.belongs hj
    obtain ⟨r, hact⟩ := tables_serve.shift hj ht (isTerminal_iff.mpr (.inl hterm))
    exact ⟨t, r, hact⟩

end States

section Weights

def weight : Symbol → Nat
  | .program | .references | .arguments | .argument | .functionName | .parameters | .body | .test | .consequence
  | .alternative | .expressions => 1
  | .statements | .empty => 2
  | .statement => 3
  | .printStatement | .definition => 4
  | .expression => 5
  | .reference | .function | .numericOperation | .logicalOperation | .call | .conditional => 6
  | _ => 10

def weights : Parser.Weights grammar automaton where
  weight := weight
  extra := extra
  lift := 3
  cost := 14
  positive s := by
    unfold weight
    split <;> decide
  reduce := by
    rw [grammar_productions]
    decide +kernel
  entered {q s r} hr hlift := by
    obtain ⟨st, i, hst, hi, hs⟩ := automaton_explored.exists_kernel hr
    rw [Parser.lifted, itemsOf_eq hst] at hlift
    exact Nat.le_of_eq ((orderly_of_states hst).lifted (any_eq_true.mp hlift) i hi s hs).symm
  shift {s} hs := by
    have hall : ∀ t ∈ Symbol.terminals ++ [.error], weight t + extra t < 14 := by decide
    apply hall
    rw [mem_append, mem_singleton]
    exact isTerminal_iff.mp hs
  restart := by decide

end Weights

section Decided

lemma onlyNext_eq {s u : Symbol} (h : onlyNext s = some u) : u = .endOfInput ∨ u = .close := by
  unfold onlyNext at h
  split at h <;> simp_all

lemma automaton_limited : Limited grammar automaton .program onlyNext where
  next {q r s t u i} hr hu hi ht := by
    obtain ⟨st, j, hst, hj, hs⟩ := automaton_explored.exists_kernel hr
    rw [itemsOf_eq hst] at hi
    exact (orderly_of_states hst).only j hj s hs u hu i hi t ht
  solid hu := by
    rw [grammar_nullable]
    rcases onlyNext_eq hu with rfl | rfl <;> decide
  last hu := (Option.some.inj hu).symm
  outer {pr before after s u} hpr hsym hafter hu := by
    rw [grammar_nullable] at hafter
    have hk : before.length < pr.symbols.length := by simp [hsym]
    apply surveyed.outer pr (grammar_all ▸ hpr) before.length hk (by simpa [hsym] using hafter) s
    · simp [hsym]
    · exact hu

def preferred : List (Symbol × List Symbol) :=
  productions.erase (.definition, [.open_, .define, .functionName, .function, .close])

lemma number_le {pr rival : Production Symbol} (hrival : rival ∈ grammar.productions) (hpr : pr ∈ grammar.productions)
    (h : Draft.productionLine grammar rival.number ≤ Draft.productionLine grammar pr.number) :
    rival.number ≤ pr.number := by
  have hline : ∀ {p}, p ∈ grammar.productions → Draft.productionLine grammar p.number + 1 = p.number := by
    intro p hp
    rw [Draft.productionLine, grammar_numbered.production?_number (mem_append_right _ hp)]
    rw [grammar_productions] at hp
    exact surveyed.line p hp
  have h₁ := hline hrival
  have h₂ := hline hpr
  omega

lemma symbols_eq_identifier {p : Production Symbol} (hp : p ∈ grammar.productions)
    (h : p.name = .functionName ∨ p.name = .reference) : p.symbols = [.identifier] := by
  rw [grammar_productions] at hp
  exact surveyed.identifier p hp h

lemma not_reference {q : Nat} (h : Parser.Wanted whole automaton preferred q .functionName) :
    ∀ i ∈ automaton.itemsOf q, i.name ≠ .reference := by
  obtain ⟨pr, d, hi, hs, hpr⟩ := h
  obtain ⟨st, hst, horder⟩ := exists_orderly hi
  have hall : ∀ r ∈ preferred, .functionName ∈ r.2 → r.1 = .call := by decide
  have hname : pr.name = .call := by
    rcases hpr with hpr | rfl
    · exact hall _ hpr (mem_of_getElem? hs)
    · exact absurd (mem_of_getElem? hs) (by decide)
  rw [hst] at hi ⊢
  exact horder.called ⟨_, hi, hname, hs⟩

lemma tables_decided : Parser.Decided tables grammar whole automaton .program preferred where
  rule hr := by
    rw [rulesOf_grammar]
    exact mem_of_mem_erase hr
  reduce {pr q q' s} hpr hallowed hwanted h0 hreach hfollow := by
    have hend := automaton_explored.dotted_length_mem h0 hreach
    obtain ⟨st, hst, horder⟩ := exists_orderly hend
    rw [hst] at hend
    have hcomplete : (pr.dotted pr.symbols.length).isComplete = true := decide_eq_true (Nat.le_refl _)
    apply tables_serve.action?_eq_reduce hpr h0 hreach hfollow
    · cases hr : automaton.goto? q' s with
      | none => rfl
      | some r =>
        obtain ⟨j, hj, hs⟩ := automaton_explored.exists_expected hr
        rw [hst] at hj
        obtain ⟨u, hu, hne⟩ := horder.apart _ hend hcomplete j hj s hs
        exact absurd (automaton_limited.eq_of_follows automaton_explored hfollow hu).symm hne
    · intro rival hrival hrend hline
      rw [hst] at hrend
      have hle := number_le hrival hpr hline
      rcases horder.reduce _ hend hcomplete _ hrend (decide_eq_true (Nat.le_refl _)) with hge | ⟨hname, hrname⟩
      · exact Nat.le_antisymm hle hge
      · -- where a function is called, no reference begins
        exfalso
        have hsym : pr.symbols = [.identifier] := symbols_eq_identifier hpr (.inl hname)
        have hrsym : rival.symbols = [.identifier] := symbols_eq_identifier hrival (.inr hrname)
        rw [hsym, reach?_cons] at hreach
        obtain ⟨r, hr, hreach⟩ := Option.bind_eq_some_iff.mp hreach
        obtain rfl := Option.some.inj hreach
        rw [← hst, show rival.dotted rival.symbols.length = rival.dotted (0 + 1) by rw [hrsym]; rfl] at hrend
        exact not_reference (hname ▸ hwanted) _ (automaton_explored.retreat hr hrend).1 hrname

end Decided

end LispKit.Lisp
