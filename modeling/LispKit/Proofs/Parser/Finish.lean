import LispKit.Proofs.Parser.Step
import Mathlib.Algebra.GroupWithZero.Nat

/-! A parser comes to an end after a number of steps that is linear in the input, and if it has met no error then
what it has read is derived from the start symbol. -/

set_option linter.unusedSectionVars false

namespace LispKit.Parser

open Vocabulary Collection List

variable {S V σ E : Type} [DecidableEq S] [Vocabulary S] {h : Host S V σ E} {α : Type} {Q : Quiet h α}
variable {t : Tables S} {g : Grammar S} {p : Production S} {A : Collection S} {start : S}
variable {c c' : Config S V σ} {ss : List (StackSymbol S V)} {w input : List α}

def lifted (A : Collection S) (q : Nat) : Bool :=
  (A.itemsOf q).any fun i => i.symbols.isEmpty

/-- Weights under which every reduction makes the stack lighter. A production without symbols is paid for by the
state in which it is reduced, and a symbol that leads to such a state has its extra weight. -/
structure Weights (g : Grammar S) (A : Collection S) where
  weight : S → Nat
  extra : S → Nat
  lift : Nat
  cost : Nat
  positive : ∀ s, 0 < weight s
  reduce : ∀ pr ∈ g.productions, weight pr.name + extra pr.name <
    (pr.symbols.map weight).sum + if pr.symbols.isEmpty then lift else 0
  entered : ∀ {q s r}, A.goto? q s = some r → lifted A r = true → lift ≤ extra s
  shift : ∀ {s}, g.isTerminal s = true → weight s + extra s < cost
  restart : lift + 1 < cost

namespace Weights

variable (W : Weights g A)

def bonus (q : Nat) : Nat :=
  if lifted A q then W.lift else 0

lemma bonus_le (q : Nat) : W.bonus q ≤ W.lift := by
  unfold bonus
  split
  · exact Nat.le_refl _
  · exact Nat.zero_le _

lemma bonus_le_extra {q r : Nat} {s : S} (hr : A.goto? q s = some r) : W.bonus r ≤ W.extra s := by
  unfold bonus
  split
  · exact W.entered hr ‹_›
  · exact Nat.zero_le _

def stackWeight (ss : List (StackSymbol S V)) : Nat :=
  (ss.map fun s => W.weight s.type).sum

lemma length_le_stackWeight (ss : List (StackSymbol S V)) : ss.length ≤ W.stackWeight ss := by
  induction ss with
  | nil => exact Nat.le_refl 0
  | cons s ss ih =>
    have := W.positive s.type
    simp only [stackWeight, map_cons, sum_cons, length_cons] at ih ⊢
    omega

def bound (q : Nat) (ss : List (StackSymbol S V)) (w : List α) : Nat :=
  W.cost * w.length + W.stackWeight ss + W.bonus q + 1

lemma restart_lt (q : Nat) (w : List α) : W.bound q ([] : List (StackSymbol S V)) w < W.cost * (w.length + 1) := by
  have hrestart := W.restart
  have hbonus := W.bonus_le q
  simp only [bound, stackWeight, map_nil, sum_nil, Nat.mul_succ]
  omega

lemma shift_lt {a : α} {q r : Nat} {token : StackSymbol S V} (hterm : g.isTerminal (Q.type a) = true)
    (hr : A.goto? q (Q.type a) = some r) (htype : token.type = Q.type a) :
    W.bound r (token :: ss) w < W.bound q ss (a :: w) := by
  have hshift := W.shift hterm
  have hextra := W.bonus_le_extra hr
  simp only [bound, stackWeight, map_cons, sum_cons, length_cons, Nat.mul_succ, htype]
  omega

lemma reduce_lt {pr : Production S} {q q' r : Nat} {v : V} (hpr : pr ∈ g.productions)
    (hi : pr.dotted pr.symbols.length ∈ A.itemsOf q) (hr : A.goto? q' pr.name = some r)
    (htypes : (ss.take pr.symbols.length).reverse.map StackSymbol.type = pr.symbols) :
    W.stackWeight ({ type := pr.name, value := some v } :: ss.drop pr.symbols.length) + W.bonus r <
      W.stackWeight ss + W.bonus q := by
  have hreduce := W.reduce pr hpr
  have hextra := W.bonus_le_extra hr
  have hsplit : W.stackWeight ss = (pr.symbols.map W.weight).sum + W.stackWeight (ss.drop pr.symbols.length) := by
    have htake : W.stackWeight (ss.take pr.symbols.length) = (pr.symbols.map W.weight).sum := by
      have hsum := congrArg (fun types => (types.map W.weight).sum) htypes
      rw [← hsum, List.map_map, map_reverse, sum_reverse]
      rfl
    rw [← htake, stackWeight, stackWeight, stackWeight, ← sum_append, ← map_append, take_append_drop]
  have hlift : (if pr.symbols.isEmpty then W.lift else 0) ≤ W.bonus q := by
    split
    · rename_i hempty
      have hlifted : lifted A q = true := any_eq_true.mpr ⟨_, hi, hempty⟩
      simp only [bonus, if_pos hlifted, Nat.le_refl]
    · exact Nat.zero_le _
  have hcons : W.stackWeight ({ type := pr.name, value := some v } :: ss.drop pr.symbols.length) =
      W.weight pr.name + W.stackWeight (ss.drop pr.symbols.length) := by
    simp only [stackWeight, map_cons, sum_cons]
  omega

end Weights

def Derived (Q : Quiet h α) (g : Grammar S) (input : List α) (c : Config S V σ) (ss : List (StackSymbol S V))
    (w : List α) : Prop :=
  Q.clean c.host = true → ∃ read, input = read ++ w ∧
    Derives (Lookahead.rulesOf g) (ss.reverse.map StackSymbol.type) (read.map Q.type)

lemma derived_of_dirty (hd : Q.clean c.host = false) : Derived Q g input c ss w := by
  intro hcl
  rw [hd] at hcl
  cases hcl

lemma Derived.shift {a : α} {token : StackSymbol S V} (hd : Derived Q g input c ss (a :: w))
    (htype : token.type = Q.type a) (hclean : Q.clean c'.host = Q.clean c.host) :
    Derived Q g input c' (token :: ss) w := by
  intro hcl
  obtain ⟨read, rfl, hder⟩ := hd (hclean ▸ hcl)
  refine ⟨read ++ [a], by simp, ?_⟩
  have := hder.append_right [Q.type a]
  rw [reverse_cons, map_append, map_append]
  simpa [htype] using this

lemma Derived.reduce {pr : Production S} {v : V} (hd : Derived Q g input c ss w) (hpr : pr ∈ g.productions)
    (htypes : (ss.take pr.symbols.length).reverse.map StackSymbol.type = pr.symbols)
    (hclean : Q.clean c'.host = Q.clean c.host) :
    Derived Q g input c' ({ type := pr.name, value := some v } :: ss.drop pr.symbols.length) w := by
  intro hcl
  obtain ⟨read, hinput, hder⟩ := hd (hclean ▸ hcl)
  refine ⟨read, hinput, ?_⟩
  have hsplit : ss.reverse.map StackSymbol.type =
      (ss.drop pr.symbols.length).reverse.map StackSymbol.type ++ pr.symbols ++ [] := by
    have happend : ((ss.drop pr.symbols.length).reverse ++ (ss.take pr.symbols.length).reverse).map StackSymbol.type =
        (ss.drop pr.symbols.length).reverse.map StackSymbol.type ++
          (ss.take pr.symbols.length).reverse.map StackSymbol.type := map_append
    rw [htypes, ← reverse_append, take_append_drop] at happend
    rw [append_nil, happend]
  rw [hsplit] at hder
  have hrule : (pr.name, pr.symbols) ∈ Lookahead.rulesOf g := mem_map.mpr ⟨pr, hpr, rfl⟩
  rw [reverse_cons, map_append]
  exact .head (.rule _ [] hrule) hder

/-- A parser comes to an end: it has read all of the input, and it is clean only if the input is derived. -/
theorem run_finishes (ht : Steady t g p A start) (W : Weights g A) (input : List α) (n : Nat)
    (hc : Normal Q A c ss w ∧ Derived Q g input c ss w ∧ W.bound c.state ss w ≤ n ∨
      Panic Q t A c ss w ∧ W.cost * (w.length + 1) + ss.length ≤ n) :
    ∃ v c', run h t {} n c = .finished v c' ∧ Q.Feed c'.host none ∧
      (Q.clean c'.host = true → Derives (Lookahead.rulesOf g) [start] (input.map Q.type)) := by
  have hcost := W.restart
  induction n generalizing c ss w with
  | zero =>
    rcases hc with ⟨-, -, hle⟩ | ⟨-, hle⟩
    · exact absurd hle (by simp [Weights.bound])
    · rw [Nat.mul_succ] at hle
      omega
  | succ n ih =>
    rw [run]
    rcases hc with ⟨hn, hder, hle⟩ | ⟨hp, hle⟩
    · have heffect := hn.effect ht
      generalize step h t {} c = r at heffect ⊢
      cases heffect with
      | shift hw hterm hgoto htype hn' hclean =>
        subst hw
        refine ih (.inl ⟨hn', hder.shift htype hclean, ?_⟩)
        exact Nat.le_of_lt_succ (Nat.lt_of_lt_of_le (W.shift_lt hterm hgoto htype) hle)
      | @reduce pr q v c' hpr hi hgoto htypes hn' hclean =>
        refine ih (.inl ⟨hn', hder.reduce hpr htypes hclean, ?_⟩)
        have hlt := W.reduce_lt (v := v) hpr hi hgoto htypes
        unfold Weights.bound at hle ⊢
        omega
      | accept hw hss htype hf hclean =>
        refine ⟨_, _, rfl, hf, ?_⟩
        intro hcl
        obtain ⟨read, hread, hd⟩ := hder (hclean ▸ hcl)
        rw [hw, append_nil] at hread
        rw [hread, ← htype]
        simpa [hss] using hd
      | fail hf hdirty =>
        refine ⟨_, _, rfl, hf, ?_⟩
        rw [hdirty]
        exact Bool.noConfusion
      | @discard a w' c' hw hss hn' hdirty =>
        subst hw hss
        refine ih (.inl ⟨hn', derived_of_dirty hdirty, ?_⟩)
        have hlt := W.restart_lt (V := V) c'.state w'
        simp only [Weights.bound, length_cons] at hle hlt ⊢
        omega
      | panic hw hp =>
        subst hw
        refine ih (.inr ⟨hp, ?_⟩)
        have := W.length_le_stackWeight ss
        simp only [Weights.bound, length_cons] at hle
        omega
    · obtain ⟨c', hstep, hdirty, hcase⟩ := hp.step ht
      rw [hstep]
      rcases hcase with ⟨rfl, hn⟩ | ⟨top, rest, rfl, hp'⟩
      · refine ih (.inl ⟨hn, derived_of_dirty hdirty, ?_⟩)
        have hlt := W.restart_lt (V := V) c'.state w
        rw [length_nil] at hle
        omega
      · refine ih (.inr ⟨hp', ?_⟩)
        rw [length_cons] at hle
        omega

end LispKit.Parser
