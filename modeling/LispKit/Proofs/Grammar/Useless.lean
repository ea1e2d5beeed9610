import LispKit.Grammar.Inspect
import LispKit.Proofs.Grammar.Consistent
import LispKit.Proofs.Grammar.Useful

/-! Useless symbols: the nonterminals that no form derived from the start symbol holds, and those from which no string of
terminals can be derived. -/

namespace LispKit

open List Registry

section Derives

variable {S : Type} {rules : List (S × List S)} {u v x y symbols : List S}

lemma Derives.append_left (h : Derives rules u v) (x : List S) : Derives rules (x ++ u) (x ++ v) := by
  induction h with
  | refl => exact .refl
  | tail _ hstep ih =>
    refine ih.tail ?_
    cases hstep with
    | rule u v hrule => simpa using Produces.rule (x ++ u) v hrule

lemma Derives.append (h : Derives rules u v) (h' : Derives rules x y) : Derives rules (u ++ x) (v ++ y) :=
  (h.append_right x).trans (h'.append_left v)

lemma Derives.of_rule {name : S} (h : (name, symbols) ∈ rules) : Derives rules [name] symbols := by
  have hstep := Produces.rule [] [] h
  rw [nil_append, nil_append, append_nil] at hstep
  exact .single hstep

lemma Derives.exists_of_forall {P : S → Prop}
    (h : ∀ s ∈ symbols, ∃ w, (∀ t ∈ w, P t) ∧ Derives rules [s] w) : ∃ w, (∀ t ∈ w, P t) ∧ Derives rules symbols w := by
  induction symbols with
  | nil => exact ⟨[], forall_mem_nil _, .refl⟩
  | cons s symbols ih =>
    obtain ⟨⟨w, hw, hs⟩, hsymbols⟩ := forall_mem_cons.mp h
    obtain ⟨x, hx, hrest⟩ := ih hsymbols
    exact ⟨w ++ x, forall_mem_append.mpr ⟨hw, hx⟩, hs.append hrest⟩

end Derives

namespace Grammar

open Vocabulary Lookahead

variable {S : Type} [DecidableEq S] [Vocabulary S] {g : Grammar S} {s : S}

section Reachable

/-- What has been marked since, with all that it leads to. -/
def Marked (g : Grammar S) (seen more : List S) : Prop :=
  seen ⊆ more ∧ ∀ a ∈ more, a ∈ seen ∨ ∀ pr ∈ g.productionsOf a, ∀ b ∈ pr.symbols, b ∈ more

omit [Vocabulary S] in
lemma Marked.trans {seen more most : List S} (h : g.Marked seen more) (h' : g.Marked more most) : g.Marked seen most := by
  refine ⟨Subset.trans h.1 h'.1, fun a ha => ?_⟩
  rcases h'.2 a ha with ha | ha
  · exact (h.2 a ha).imp_right fun hall pr hpr b hb => h'.1 (hall pr hpr b hb)
  · exact .inr ha

end Reachable

section Finishing

omit [DecidableEq S] [Vocabulary S] in
lemma mem_of_derives {settled u w : List S} (hclosed : g.Closed settled) (h : Derives (rulesOf g) u w)
    (hw : ∀ a ∈ w, a ∈ settled) : ∀ a ∈ u, a ∈ settled := by
  induction h using Relation.ReflTransGen.head_induction_on with
  | refl => exact hw
  | head hstep _ ih =>
    cases hstep with
    | rule u v hrule =>
      obtain ⟨pr, hpr, heq⟩ := mem_map.mp hrule
      obtain ⟨rfl, rfl⟩ := Prod.mk.inj heq
      simp only [forall_mem_append, forall_mem_cons] at ih ⊢
      exact ⟨ih.1.1, hclosed pr hpr ih.1.2, ih.2⟩

end Finishing

end Grammar

namespace Grammar

open Lookahead Declaration

variable {ts : List String} {ds : List Declaration} {g g₀ : Grammar String} {start : Option String}

lemma Declaration.declared_performAll (hg : g₀.Declared) (h : performAll g₀ ds = some g) : g.Declared := by
  induction ds generalizing g₀ with
  | nil => exact Option.some.inj h ▸ hg
  | cons d ds ih =>
    obtain ⟨g₁, hd, hds⟩ := Option.bind_eq_some_iff.mp h
    refine ih ?_ hds
    cases d with
    | precedence symbol associativity level =>
      obtain rfl := Option.some.inj hd
      split
      · rename_i hok
        exact hg.setPrecedence hok
      · exact hg
    | production name symbols place rule =>
      simp only [perform] at hd
      split at hd
      · rename_i hok
        exact hg.declare (Option.some.inj hd ▸ hok)
      · cases hd

def looping : List Declaration :=
  [.production "s" ["A"] ⟨"loop", 1⟩ "", .production "t" ["t", "A"] ⟨"loop", 2⟩ ""]

def looped : Grammar String :=
  (performAll (ofTerminals ["A"]) looping).get (by decide +kernel)

end Grammar

end LispKit
