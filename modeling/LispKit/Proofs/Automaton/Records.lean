import LispKit.Proofs.Automaton.Family
import LispKit.Automaton.Table

/-! What was computed about a grammar, its first and following symbols and its counts, does not change its table. -/

namespace LispKit

open Collection

variable {S : Type} [DecidableEq S] [Vocabulary S]

def Grammar.withRecords (g : Grammar S) (first follow : Registry S (List S)) (reductions : Registry Nat Int) : Grammar S :=
  { g with first := first, follow := follow, reductions := reductions }

section

variable (g : Grammar S) (first follow : Registry S (List S)) (reductions : Registry Nat Int)

omit [Vocabulary S] in
lemma closure_withRecords : closure (g.withRecords first follow reductions) = closure g := by
  funext kernel
  have hof : ∀ s, (g.withRecords first follow reductions).productionsOf s = g.productionsOf s := fun _ => rfl
  exact closure_congr hof rfl kernel

omit [Vocabulary S] in
lemma build_withRecords (p : Production S) : build (g.withRecords first follow reductions) p = build g p := by
  have hstep : addStep (g.withRecords first follow reductions) = addStep g := by
    funext items found s
    simp only [addStep, closure_withRecords]
  have hexplore : ∀ n c, exploreFrom (g.withRecords first follow reductions) n c = exploreFrom g n c := by
    intro n
    induction n with
    | zero => exact fun _ => rfl
    | succ n ih =>
      intro c
      rw [exploreFrom, exploreFrom]
      split
      · rfl
      · simp only [hstep, ih]
  have hinitial : initial (g.withRecords first follow reductions) p = initial g p := by
    simp only [initial, closure_withRecords]
  rw [build, build, hexplore, hinitial]
  rfl

lemma compute_withRecords (c : Collection S) (start : S) :
    Lookahead.compute (g.withRecords first follow reductions) c start = Lookahead.compute g c start := by
  have hwalk : Lookahead.walk (g.withRecords first follow reductions) c = Lookahead.walk g c := by
    funext nullable known state ss
    induction ss generalizing state with
    | nil => rfl
    | cons s ss ih =>
      rw [Lookahead.walk, Lookahead.walk, ih]
      rfl
  have hrelate : Lookahead.relate (g.withRecords first follow reductions) c = Lookahead.relate g c := by
    funext nullable known r t
    simp only [Lookahead.relate, hwalk]
  simp only [Lookahead.compute, Lookahead.relations, hrelate]
  rfl

lemma addItems_withRecords (c : Collection S) (lookaheads : List (Lookahead.Entry S)) (state : Nat) :
    Draft.addItems (g.withRecords first follow reductions) c lookaheads state = Draft.addItems g c lookaheads state := by
  have hreduction : Draft.addReduction (g.withRecords first follow reductions) = Draft.addReduction g := rfl
  have hreductions : Draft.addReductions (g.withRecords first follow reductions) = Draft.addReductions g := by
    funext state item ss
    induction ss with
    | nil => rfl
    | cons s ss ih =>
      funext d
      simp only [Draft.addReductions, hreduction, ih]
  have hitem : Draft.addItem (g.withRecords first follow reductions) = Draft.addItem g := by
    funext c lookaheads state item d
    simp only [Draft.addItem, hreductions]
    rfl
  funext items
  induction items with
  | nil => rfl
  | cons item items ih =>
    funext d
    simp only [Draft.addItems, hitem, ih]

theorem tableBuild_withRecords (p : Production S) :
    Table.build (g.withRecords first follow reductions) p = Table.build g p := by
  have hrows : ∀ c lookaheads state sts t, Table.buildRows (g.withRecords first follow reductions) c lookaheads state sts t =
      Table.buildRows g c lookaheads state sts t := by
    intro c lookaheads state sts
    induction sts generalizing state with
    | nil => exact fun _ => rfl
    | cons st sts ih =>
      intro t
      simp only [Table.buildRows, addItems_withRecords, ih]
      rfl
  simp only [Table.build, build_withRecords, compute_withRecords, hrows]

end

end LispKit
