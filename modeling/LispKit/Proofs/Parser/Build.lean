import LispKit.Parser.Build
import LispKit.Proofs.Automaton.Bound
import LispKit.Proofs.Automaton.Records
import LispKit.Proofs.Automaton.Table
import LispKit.Proofs.Log

/-! What a parser that could be built consists of: a grammar whose productions and symbols are in order, and the table of
that grammar. -/

namespace LispKit

def Logs.hasError (l : Logs) : Bool :=
  l.messages.any LogLine.isError

namespace Grammar

variable {S : Type} [DecidableEq S] [Vocabulary S] {g g' : Grammar S} {t : Table S}

open Vocabulary

lemma of_computeFirst (hfirst : g.first = {}) (h : g.computeFirst = (.ok (), g')) :
    (∀ s ∈ g.nonterminals.keys, g.isDefined s = true) ∧ ∃ first, g' = { g with first := first } := by
  have hblank : (!g.first.isEmpty) = false := by
    rw [hfirst]
    rfl
  unfold computeFirst at h
  rw [hblank, if_neg Bool.false_ne_true] at h
  dsimp only at h
  split at h
  · cases (Prod.mk.inj h).1
  · rename_i hnone
    obtain ⟨-, rfl⟩ := Prod.mk.inj h
    refine ⟨fun s hs => ?_, _, rfl⟩
    rw [List.find?_eq_none] at hnone
    simpa using hnone s hs

lemma of_computeFollow {g' : Grammar S} (h : g.computeFollow none = (.ok (), g')) :
    ∃ first follow, g' = { g with first := first, follow := follow } := by
  have hfirst : ∀ {r : Except Fault Unit} {g₁ : Grammar S}, g.computeFirst = (r, g₁) → ∃ first, g₁ = { g with first := first } := by
    intro r g₁ h
    unfold computeFirst at h
    split at h
    · obtain ⟨-, rfl⟩ := Prod.mk.inj h
      exact ⟨g.first, rfl⟩
    · dsimp only at h
      split at h
      · obtain ⟨-, rfl⟩ := Prod.mk.inj h
        exact ⟨_, rfl⟩
      · obtain ⟨-, rfl⟩ := Prod.mk.inj h
        exact ⟨_, rfl⟩
  unfold computeFollow at h
  split at h
  · obtain ⟨-, rfl⟩ := Prod.mk.inj h
    exact ⟨g.first, g.follow, rfl⟩
  · split at h
    · cases (Prod.mk.inj h).1
    · rename_i g₁ hg₁
      have hg₁ : ∃ first, g₁ = { g with first := first } := by
        split at hg₁
        · exact hfirst hg₁
        · obtain ⟨-, rfl⟩ := Prod.mk.inj hg₁
          exact ⟨g.first, rfl⟩
      obtain ⟨first, rfl⟩ := hg₁
      split at h
      · cases (Prod.mk.inj h).1
      · dsimp only at h
        split at h
        · cases (Prod.mk.inj h).1
        · obtain ⟨-, rfl⟩ := Prod.mk.inj h
          exact ⟨first, _, rfl⟩

lemma of_buildTable (hfirst : g.first = {}) (h : g.buildTable = (.ok (), t, g')) : ∃ p, g.augmented = some p ∧
    (∀ s ∈ g.nonterminals.keys, g.isDefined s = true) ∧ t = Table.build g p ∧ t.error? = none ∧
    ∃ first follow, g' = ({ g with first := first, follow := follow } : Grammar S).recordReductions t := by
  unfold buildTable at h
  split at h
  · cases (Prod.mk.inj h).1
  · rename_i p hp
    split at h
    · cases (Prod.mk.inj h).1
    · rename_i g₁ hg₁
      obtain ⟨hdefined, first, rfl⟩ := of_computeFirst hfirst hg₁
      split at h
      · cases (Prod.mk.inj h).1
      · rename_i g₂ hg₂
        obtain ⟨first', follow, rfl⟩ := of_computeFollow hg₂
        dsimp only at h
        split at h
        · cases (Prod.mk.inj h).1
        · rename_i herror
          obtain ⟨-, h⟩ := Prod.mk.inj h
          obtain ⟨rfl, rfl⟩ := Prod.mk.inj h
          exact ⟨p, hp, hdefined, rfl, herror, first', follow, rfl⟩

end Grammar

namespace Parser

open Logging Vocabulary

variable {β : Type} {g g' : Grammar String}

namespace Build

lemma declared_declarePrecedences {ps : List PrecedenceLine} (hg : g.Declared)
    (h : (declarePrecedences ps g).Returns g') : g'.Declared := by
  induction ps generalizing g with
  | nil =>
    obtain rfl := h.pure
    exact hg
  | cons p ps ih =>
    rw [declarePrecedences] at h
    split at h
    · rename_i g₁ hg₁
      exact ih (hg.setPrecedence hg₁) h
    · obtain ⟨_, _, h⟩ := h.bind
      exact ih hg h

lemma declared_declareProductions {ps : List Declared.RuleProduction} {bad : Bool}
    (h : (declareProductions ps bad g).Returns (false, g')) : bad = false ∧ (g.Declared → g'.Declared) := by
  induction ps generalizing g bad with
  | nil =>
    obtain ⟨rfl, rfl⟩ := Prod.mk.inj h.pure
    exact ⟨rfl, id⟩
  | cons p ps ih =>
    rw [declareProductions] at h
    split at h
    · rename_i g₁ hg₁
      exact ⟨(ih h).1, fun hg => (ih h).2 (hg.declare hg₁)⟩
    · exact h.throw.elim
    · obtain ⟨_, _, h⟩ := h.bind
      cases (ih h).1

lemma of_declareStart {start : Option Datum} (h : (declareStart start g).Returns (false, g')) :
    ∃ s, g.isNonterminal s = true ∧ g' = g.setStart s := by
  unfold declareStart at h
  split at h
  · rename_i g₁ hg₁
    obtain ⟨-, rfl⟩ := Prod.mk.inj h.pure
    cases hname : startName start with
    | error e =>
      rw [hname] at hg₁
      cases hg₁
    | ok name =>
      rw [hname] at hg₁
      change g.declareStart name = .ok g₁ at hg₁
      unfold Grammar.declareStart at hg₁
      split at hg₁
      · cases hg₁
      · rename_i s hs
        split at hg₁
        · rename_i hn
          exact ⟨s, hn, (Except.ok.inj hg₁).symm⟩
        · cases hg₁
  · exact h.throw.elim
  · obtain ⟨_, _, h⟩ := h.bind
    obtain ⟨_, _, h⟩ := h.bind
    cases h.pure

lemma of_grammarOf {d : Declared β} {tokens : List String} {precedences : List PrecedenceLine}
    {productions : List Declared.RuleProduction} (h : (grammarOf d tokens precedences productions).Returns g) :
    ∃ (g₁ : Grammar String) (s : String), g₁.Declared ∧ g₁.isNonterminal s = true ∧ g = g₁.setStart s := by
  unfold grammarOf at h
  obtain ⟨g₁, hprecedences, h₁⟩ := h.bind
  obtain ⟨⟨badProduction, g₂⟩, hproductions, h₂⟩ := h₁.bind
  obtain ⟨⟨badStart, g₃⟩, hstart, h₃⟩ := h₂.bind
  dsimp only at h₃
  split at h₃
  · obtain ⟨_, hthrow, _⟩ := h₃.bind
    exact hthrow.throw.elim
  · rename_i hgood
    obtain rfl := h₃.pure
    obtain ⟨rfl, rfl⟩ : badProduction = false ∧ badStart = false := by simpa using hgood
    obtain ⟨s, hs, rfl⟩ := of_declareStart hstart
    have hdeclared := declared_declarePrecedences (Grammar.declared_ofTerminals tokens) hprecedences
    exact ⟨g₂, s, (declared_declareProductions hproductions).2 hdeclared, hs, rfl⟩

variable {opts : BuildOptions}

lemma of_checkUseful (h : (checkUseful opts g).Returns false) (ho : opts.checkRecursion = true) : g.endless = [] := by
  unfold checkUseful at h
  rw [if_pos ho] at h
  obtain ⟨_, _, h₁⟩ := h.bind
  obtain ⟨_, _, h₂⟩ := h₁.bind
  obtain ⟨_, _, h₃⟩ := h₂.bind
  simpa using h₃.pure

lemma of_checkGrammar (h : (checkGrammar opts g).Returns ()) (ho : opts.checkRecursion = true) : g.endless = [] := by
  unfold checkGrammar at h
  obtain ⟨undefined, _, h₁⟩ := h.bind
  obtain ⟨_, _, h₂⟩ := h₁.bind
  obtain ⟨_, _, h₃⟩ := h₂.of_ite.bind
  obtain ⟨endless, hendless, h₄⟩ := h₃.of_ite.bind
  obtain ⟨unknown, _, h₅⟩ := h₄.bind
  split at h₅
  · exact h₅.throw.elim
  · rename_i hgood
    cases endless with
    | true => simp at hgood
    | false => exact of_checkUseful hendless ho

lemma of_tableOf {t : Table String} (h : (tableOf opts g).Returns (t, g')) : g.buildTable = (.ok (), t, g') := by
  unfold tableOf at h
  rcases htable : g.buildTable with ⟨outcome, t', g''⟩
  rw [htable] at h
  obtain ⟨_, _, h₁⟩ := h.bind
  split at h₁
  · obtain ⟨rfl, rfl⟩ := Prod.mk.inj h₁.pure
    rfl
  · exact h₁.throw.elim
  · exact h₁.throw.elim

end Build

structure Made (opts : BuildOptions) (b : Built) (p : Production String) (start : String) : Prop where
  ready : b.grammar.Ready p start
  start : b.grammar.start = some start
  table : b.table = Table.build b.grammar p
  finished : b.table.error? = none
  tables : Tables.ofTable b.grammar.all b.table = .ok b.tables
  endless : opts.checkRecursion = true → b.grammar.endless = []
  flat : b.grammar.precedence = {} → b.grammar.Flat

theorem made_build {ds : Declarations β} {opts : BuildOptions} {b : Built} {logs : Logs}
    (h : build ds opts = (.ok b, logs)) : ∃ p start, Made opts b p start := by
  have h : (Build.build ds opts).Returns b := ⟨{}, logs, h⟩
  unfold Build.build at h
  obtain ⟨d, _, h₁⟩ := h.bind
  split at h₁
  · exact h₁.throw.elim
  · obtain ⟨_, _, h₂⟩ := h₁.bind
    obtain ⟨_, _, h₃⟩ := h₂.bind
    obtain ⟨⟨precedences, productions⟩, _, h₄⟩ := h₃.bind
    obtain ⟨g, hgrammar, h₅⟩ := h₄.of_ite.bind
    obtain ⟨_, hcheck, h₆⟩ := h₅.bind
    obtain ⟨⟨t, g'⟩, htable, h₇⟩ := h₆.bind
    obtain ⟨tables, htables, h₈⟩ := h₇.of_ite.bind
    obtain rfl := h₈.pure
    obtain ⟨g₁, s, hdeclared, hs, rfl⟩ := Build.of_grammarOf hgrammar
    have hfirst : (g₁.setStart s).first = {} := hdeclared.first
    obtain ⟨p, hp, hdefined, rfl, herror, first, follow, rfl⟩ :=
      Grammar.of_buildTable hfirst (Build.of_tableOf htable)
    have hready := hdeclared.ready hs hdefined
    obtain rfl := Option.some.inj hp
    refine ⟨_, s, ⟨?_, rfl, (tableBuild_withRecords _ _ _ _ _).symm, herror, ?_, fun ho => ?_, ?_⟩⟩
    · exact ⟨⟨hready.numbered.number, hready.numbered.nodup, hready.numbered.positive, hready.numbered.name,
        hready.numbered.mem⟩, rfl, hready.first, hready.start, hready.name, hready.symbol, hready.unmarked, hready.defined,
        hready.inner⟩
    · unfold faulty at htables
      split at htables
      · rename_i tables' htables'
        obtain rfl := htables.pure
        exact htables'
      · exact htables.throw.elim
    · have hendless := Build.of_checkGrammar hcheck ho
      exact hendless
    · intro hnone
      refine ⟨hnone, fun pr hpr => ?_⟩
      rcases List.mem_cons.mp hpr with rfl | hpr
      · rfl
      · exact hdeclared.precedence hnone pr hpr

/-- After `B` the next `A` may complete a `t` or continue it; the two have one precedence and no associativity. -/
def standoff : Declarations Unit where
  file := "standoff"
  attributes := [("tokens", .value (.list [.text "A", .text "B", .text "C"])),
    ("precedence", .value (.list [.list [.text "nonassoc", .text "A", .text "B"]])),
    ("p_s", .routine ⟨"p_s", some "s : t A\nt : B\nt : B A C", 1, 1, false, ()⟩)]
  source := none

def single : Declarations Unit where
  file := "single"
  attributes := [("tokens", .value (.list [.text "A"])), ("start", .value (.int 0)),
    ("p_s", .routine ⟨"p_s", some "s : A", 1, 1, false, ()⟩)]
  source := none

def faultOf : Except BuildError Built → Option Fault
  | .error (.fault f) => some f
  | _ => none

lemma eq_of_faultOf {r : Except BuildError Built} {f : Fault} (h : faultOf r = some f) : r = .error (.fault f) := by
  unfold faultOf at h
  split at h
  · rw [Option.some.inj h]
  · cases h

lemma standoff_fault : faultOf (build standoff {}).1 = some (.unordered "<" "NoneType" "int") := by
  decide +kernel

/-- A fault about which nothing is logged, and a parser that is built after an error was logged. -/
theorem fails_unlogged : (build standoff {}).1 = .error (.fault (.unordered "<" "NoneType" "int")) ∧
    (build standoff {}).2.hasError = false ∧
    (build single {}).1.toOption.isSome = true ∧ (build single {}).2.hasError = true := by
  refine ⟨eq_of_faultOf standoff_fault, ?_, ?_, ?_⟩
  · decide +kernel
  · decide +kernel
  · decide +kernel

end Parser

end LispKit
