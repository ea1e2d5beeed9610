import LispKit.Grammar.First
import Mathlib.Data.List.Basic

/-! First and following symbols are found for every grammar whose symbols are all known. -/

namespace LispKit

open List

section Registry

variable {κ ν : Type} [BEq κ] [LawfulBEq κ] {r : Registry κ ν} {k : κ}

lemma Registry.contains_insert (r : Registry κ ν) (k l : κ) (v : ν) :
    (r.insert l v).contains k = true ↔ r.contains k = true ∨ k = l := by
  rw [contains_iff_mem_keys, contains_iff_mem_keys, keys_insert]
  split
  · rename_i h
    rw [contains_iff_mem_keys] at h
    constructor
    · exact .inl
    · rintro (hk | rfl)
      · exact hk
      · exact h
  · rw [mem_append, mem_singleton]

lemma Registry.contains_foldl_insert (ks : List κ) (f : κ → ν) (r : Registry κ ν) (k : κ) :
    (ks.foldl (fun r l => r.insert l (f l)) r).contains k = true ↔ r.contains k = true ∨ k ∈ ks := by
  induction ks generalizing r with
  | nil => simp
  | cons l ks ih => rw [foldl_cons, ih, contains_insert, mem_cons, or_assoc]

end Registry

namespace Grammar

variable {S : Type} [DecidableEq S] [Vocabulary S] {g : Grammar S} {table : Registry S (List S)} {s : S}
  {symbols : List S}

open Vocabulary

lemma contains_foldl_firstAt (ps : List (Production S))
    (h : table.contains s = true) : (ps.foldl firstAt table).contains s = true := by
  induction ps generalizing table with
  | nil => exact h
  | cons p ps ih => exact ih ((Registry.contains_insert _ _ _ _).mpr (.inl h))

omit [Vocabulary S] in
lemma contains_saturate {round : Registry S (List S) → Registry S (List S)}
    (hround : ∀ table, table.contains s = true → (round table).contains s = true) (n : Nat)
    (h : table.contains s = true) : (saturate round n table).contains s = true := by
  induction n generalizing table with
  | zero => exact h
  | succ n ih =>
    rw [saturate]
    split
    · exact hround table h
    · exact ih (hround table h)

lemma contains_firstStart (h : g.isTerminal s = true ∨ g.isNonterminal s = true ∨ s = endMark) :
    g.firstStart.contains s = true := by
  rw [firstStart, Registry.contains_foldl_insert, Registry.contains_insert, Registry.contains_foldl_insert]
  rw [isTerminal, isNonterminal, Registry.contains_iff_mem_keys, Registry.contains_iff_mem_keys] at h
  tauto

structure Known (g : Grammar S) : Prop where
  first : g.first = {}
  follow : g.follow = {}
  defined : ∀ n ∈ g.nonterminals.keys, g.isDefined n = true
  symbol : ∀ p ∈ g.productions, ∀ s ∈ p.symbols, g.isTerminal s = true ∨ g.isNonterminal s = true
  nonempty : g.productions ≠ []

def firsts (g : Grammar S) : Registry S (List S) :=
  saturate (firstRound g g.nonterminals.keys) g.roundLimit (firstStart g)

lemma contains_firsts (h : g.isTerminal s = true ∨ g.isNonterminal s = true ∨ s = endMark) :
    g.firsts.contains s = true :=
  contains_saturate (fun _ ht => contains_foldl_firstAt _ ht) _ (contains_firstStart h)

lemma computeFirst_ok (hfirst : g.first = {}) (hdefined : ∀ n ∈ g.nonterminals.keys, g.isDefined n = true) :
    g.computeFirst = (.ok (), { g with first := g.firsts }) := by
  have hnone : (g.nonterminals.keys.find? fun n => !g.isDefined n) = none := by
    rw [find?_eq_none]
    intro n hn
    simp [hdefined n hn]
  have hblank : (!g.first.isEmpty) = false := by
    rw [hfirst]
    rfl
  simp only [computeFirst, hblank, hnone, Bool.false_eq_true, if_false, firsts]

lemma firstOf?_ok (h : ∀ s ∈ symbols, table.contains s = true) : ∃ found, firstOf? table symbols = .ok found := by
  have hsub : ∀ (ss : List S), ∀ s ∈ consulted (fun s => table.getD s []) ss, s ∈ ss := by
    intro ss
    induction ss with
    | nil => exact fun _ hs => hs
    | cons a ss ih =>
      intro s hs
      rw [consulted] at hs
      split at hs
      · rcases mem_cons.mp hs with rfl | hs
        · exact mem_cons_self
        · exact mem_cons_of_mem _ (ih s hs)
      · rw [mem_singleton.mp hs]
        exact mem_cons_self
  have hnone : ((consulted (fun s => table.getD s []) symbols).find? fun s => !table.contains s) = none := by
    rw [find?_eq_none]
    intro s hs
    simp [h s (hsub symbols s hs)]
  exact ⟨_, by rw [firstOf?, hnone]⟩

lemma followAlong_ok {p : Production S} (h : ∀ s ∈ symbols, g.first.contains s = true)
    (table : Registry S (List S)) : (followAlong g p symbols table).1 = none := by
  induction symbols generalizing table with
  | nil => rfl
  | cons s rest ih =>
    have hrest : ∀ a ∈ rest, g.first.contains a = true := fun a ha => h a (mem_cons_of_mem _ ha)
    rw [followAlong]
    split
    · obtain ⟨found, hfound⟩ := firstOf?_ok hrest
      have hok : ∃ after, followAt g p s rest table = .ok after := by
        simp only [followAt, hfound, bind, Except.bind]
        split
        · exact ⟨_, rfl⟩
        · exact ⟨_, rfl⟩
      obtain ⟨after, hafter⟩ := hok
      rw [hafter]
      exact ih hrest after
    · exact ih hrest table

lemma followRound_ok {ps : List (Production S)} (h : ∀ p ∈ ps, ∀ s ∈ p.symbols, g.first.contains s = true)
    (table : Registry S (List S)) : (followRound g ps table).1 = none := by
  induction ps generalizing table with
  | nil => rfl
  | cons p ps ih =>
    have hp := followAlong_ok (p := p) (h p mem_cons_self) table
    rcases hstep : followAlong g p p.symbols table with ⟨f, after⟩
    rw [hstep] at hp
    obtain rfl : f = none := hp
    rw [followRound, hstep]
    exact ih (fun q hq => h q (mem_cons_of_mem _ hq)) after

lemma computeFollow_ok (hfollow : g.follow = {}) (hps : g.productions ≠ []) (hfirst : g.first.isEmpty = false)
    (h : ∀ p ∈ g.productions, ∀ s ∈ p.symbols, g.first.contains s = true) : (g.computeFollow none).1 = .ok () := by
  obtain ⟨p, ps, heq⟩ := exists_cons_of_ne_nil hps
  have hhead : (none : Option S).orElse (fun _ => g.productions.head?.map Production.name) = some p.name := by
    rw [heq]
    rfl
  have hround := followRound_ok h (followStart g p.name)
  rcases hstep : followRound g g.productions (followStart g p.name) with ⟨f, after⟩
  rw [hstep] at hround
  obtain rfl : f = none := hround
  have hblank : (!g.follow.isEmpty) = false := by
    rw [hfollow]
    rfl
  simp only [computeFollow, hblank, hfirst, hhead, hstep, Bool.false_eq_true, if_false]

end Grammar

end LispKit
