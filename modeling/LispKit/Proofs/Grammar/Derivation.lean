import LispKit.Grammar.Basic
import Mathlib.Data.List.Forall2
import Mathlib.Logic.Relation

/-! Derivations, and derivation trees over the tokens of an input. -/

namespace LispKit

open List

variable {S α V : Type}

inductive Produces (rules : List (S × List S)) : List S → List S → Prop
  | rule (u v : List S) {name : S} {symbols : List S} :
      (name, symbols) ∈ rules → Produces rules (u ++ name :: v) (u ++ symbols ++ v)

def Derives (rules : List (S × List S)) : List S → List S → Prop :=
  Relation.ReflTransGen (Produces rules)

lemma Derives.append_right {rules : List (S × List S)} {u v : List S} (h : Derives rules u v) (x : List S) :
    Derives rules (u ++ x) (v ++ x) := by
  induction h with
  | refl => exact .refl
  | tail _ hstep ih =>
    refine ih.tail ?_
    cases hstep with
    | rule u v hrule => simpa using Produces.rule u (v ++ x) hrule

inductive ParseTree (S α : Type)
  | leaf (a : α)
  | node (name : S) (children : List (ParseTree S α))

namespace ParseTree

mutual

def word : ParseTree S α → List α
  | leaf a => [a]
  | node _ children => words children

def words : List (ParseTree S α) → List α
  | [] => []
  | t :: ts => t.word ++ words ts

end

lemma words_eq (ts : List (ParseTree S α)) : words ts = ts.flatMap word := by
  induction ts with
  | nil => rfl
  | cons t ts ih => rw [words, ih, flatMap_cons]

lemma words_map_leaf (w : List α) : words (w.map (leaf : α → ParseTree S α)) = w := by
  rw [words_eq, flatMap_map]
  exact flatMap_singleton' w

def root (type : α → S) : ParseTree S α → S
  | leaf a => type a
  | node name _ => name

inductive Fits (rules : List (S × List S)) (terminal : S → Prop) (type : α → S) : ParseTree S α → Prop
  | leaf (a : α) : terminal (type a) → Fits rules terminal type (leaf a)
  | node (name : S) (children : List (ParseTree S α)) : (name, children.map (root type)) ∈ rules →
      (∀ t ∈ children, Fits rules terminal type t) → Fits rules terminal type (node name children)

inductive Denotes (reads : α → V → Prop) (acts : S → List V → V → Prop) : ParseTree S α → V → Prop
  | leaf {a : α} {v : V} : reads a v → Denotes reads acts (leaf a) v
  | node {name : S} {children : List (ParseTree S α)} {vs : List V} {v : V} :
      List.Forall₂ (Denotes reads acts) children vs → acts name vs v →
      Denotes reads acts (node name children) v

end ParseTree

section

variable {rules : List (S × List S)} {terminal : S → Prop} {type : α → S} {w : List α}

open ParseTree

lemma ParseTree.Fits.terminal_of_mem {t : ParseTree S α} (h : t.Fits rules terminal type) {a : α} (ha : a ∈ t.word) :
    terminal (type a) := by
  induction h with
  | leaf b hb =>
    rw [word, mem_singleton] at ha
    exact ha ▸ hb
  | node name children _ _ ih =>
    rw [word, words_eq] at ha
    obtain ⟨t, ht, ha⟩ := mem_flatMap.mp ha
    exact ih t ht ha

lemma Produces.trees {before after : List S} (h : Produces rules before after) {ts : List (ParseTree S α)}
    (hr : ts.map (root type) = after) (hf : ∀ t ∈ ts, t.Fits rules terminal type) :
    ∃ us : List (ParseTree S α), us.map (root type) = before ∧ words us = words ts ∧
      ∀ t ∈ us, t.Fits rules terminal type := by
  cases h with
  | rule u v hrule =>
    rename_i name symbols
    obtain ⟨ts₁, right, rfl, h₁, hv⟩ := map_eq_append_iff.mp hr
    obtain ⟨left, middle, rfl, hu, hm⟩ := map_eq_append_iff.mp h₁
    refine ⟨left ++ node name middle :: right, ?_, ?_, ?_⟩
    · rw [map_append, map_cons, hu, hv]
      rfl
    · simp only [words_eq, flatMap_append, flatMap_cons, word, append_assoc]
    · intro t ht
      rcases mem_append.mp ht with hl | hl
      · exact hf t (by simp [hl])
      · rcases mem_cons.mp hl with rfl | hl
        · refine .node name middle (hm ▸ hrule) ?_
          intro t ht
          exact hf t (by simp [ht])
        · exact hf t (by simp [hl])

lemma Derives.trees {symbols : List S} (h : Derives rules symbols (w.map type))
    (hw : ∀ a ∈ w, terminal (type a)) : ∃ ts : List (ParseTree S α), ts.map (root type) = symbols ∧ words ts = w ∧
      ∀ t ∈ ts, t.Fits rules terminal type := by
  induction h using Relation.ReflTransGen.head_induction_on with
  | refl =>
    refine ⟨w.map leaf, ?_, ?_, ?_⟩
    · rw [List.map_map]
      rfl
    · exact words_map_leaf w
    · intro t ht
      obtain ⟨a, ha, rfl⟩ := mem_map.mp ht
      exact .leaf a (hw a ha)
  | head hstep _ ih =>
    obtain ⟨ts, hr, hwords, hf⟩ := ih
    obtain ⟨us, hr', hwords', hf'⟩ := hstep.trees hr hf
    exact ⟨us, hr', hwords'.trans hwords, hf'⟩

lemma Derives.tree {name : S} (h : Derives rules [name] (w.map type)) (hw : ∀ a ∈ w, terminal (type a)) :
    ∃ t : ParseTree S α, t.root type = name ∧ t.word = w ∧ t.Fits rules terminal type := by
  obtain ⟨ts, hr, hwords, hf⟩ := h.trees hw
  obtain ⟨t, us, rfl, ht, hus⟩ := map_eq_cons_iff.mp hr
  obtain rfl := map_eq_nil_iff.mp hus
  refine ⟨t, ht, ?_, hf t (by simp)⟩
  rw [← hwords, words, words, append_nil]

end

end LispKit
