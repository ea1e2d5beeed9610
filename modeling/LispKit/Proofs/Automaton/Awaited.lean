import LispKit.Proofs.Automaton.Row

/-! What a stack of states waits for: a symbol that can be read after some reductions, whichever of them are made
before it is looked at, is among the lookaheads of each of them. -/

namespace LispKit

open Vocabulary Collection Lookahead List

variable {S : Type} [DecidableEq S] [Vocabulary S] {g : Grammar S} {p : Production S} {c : Collection S} {start a : S}
variable {q q' r : Nat} {qs qs' : List Nat} {s : S} {pr : Production S}

omit [Vocabulary S] in
lemma Collection.Entered.reach? (hc : Explored g p c) {ss : List S} {d : Nat} (h : Entered c (q :: qs) ss)
    (hi : pr.dotted d ∈ c.itemsOf q) (hdrop : (q :: qs).drop d = q' :: qs') :
    c.reach? q' (pr.symbols.take d) = some q := by
  induction d generalizing q qs ss with
  | zero =>
    obtain ⟨rfl, -⟩ := List.cons.inj hdrop
    rfl
  | succ d ih =>
    cases h with
    | start => exact absurd hi hc.dotted_succ_not_mem
    | push h hgoto =>
      obtain ⟨hmem, hs⟩ := hc.retreat hgoto hi
      rw [take_add_one, hs, Option.toList_some, reach?_append, ih h hmem hdrop, Option.bind_some, reach?_cons,
        hgoto]
      rfl

/-- Stacks from which the symbol can be read or the program accepted. A production may end early, where only symbols
that vanish are left of it. -/
inductive Awaits (g : Grammar S) (p : Production S) (c : Collection S) (a : S) : List Nat → Prop
  | starts {q : Nat} {qs : List Nat} : Starts g c q a → Awaits g p c a (q :: qs)
  | accept {q : Nat} {qs : List Nat} : p.dotted 1 ∈ c.itemsOf q → a = endMark → Awaits g p c a (q :: qs)
  | back {pr : Production S} {d q q' r : Nat} {qs qs' : List Nat} : pr ∈ g.productions →
      pr.dotted (d + 1) ∈ c.itemsOf q → (∀ s ∈ pr.symbols.drop (d + 1), s ∈ g.nullable) →
      (q :: qs).drop (d + 1) = q' :: qs' → c.goto? q' pr.name = some r → Awaits g p c a (r :: q' :: qs') →
      Awaits g p c a (q :: qs)

namespace Awaits

variable (hp : Plain g p c start)

include hp

theorem follows {ss : List S} (h : Awaits g p c a (r :: q :: qs)) (he : Entered c (r :: q :: qs) (s :: ss)) :
    Follows g c start q s a := by
  generalize hst : r :: q :: qs = st at h
  induction h generalizing r q qs s ss with
  | starts hstarts =>
    obtain ⟨rfl, rfl⟩ := List.cons.inj hst
    cases he with
    | push _ hgoto => exact .starts hgoto hstarts
  | accept hi ha =>
    obtain ⟨rfl, rfl⟩ := List.cons.inj hst
    cases he with
    | push _ hgoto =>
      obtain ⟨h0, hs⟩ := hp.explored.retreat hgoto hi
      obtain rfl := hp.eq_zero_of_mem hp.explored h0
      rw [hp.first.2] at hs
      obtain rfl : start = s := Option.some.inj hs
      rw [ha]
      exact .last
  | @back pr d _ q₀ r₀ _ qs₀ hpr hi hnull hdrop hgoto₀ _ ih =>
    obtain ⟨rfl, rfl⟩ := List.cons.inj hst
    cases he with
    | push he hgoto =>
      obtain ⟨hmem, hs⟩ := hp.explored.retreat hgoto hi
      obtain ⟨q₁, qs₁, hdrop₁, he₁, -, h0⟩ := he.retreat hp.explored hmem
      rw [drop_succ_cons, hdrop₁] at hdrop
      obtain ⟨rfl, rfl⟩ := List.cons.inj hdrop
      have hfollow : Follows g c start q₁ pr.name a := ih (he₁.push hgoto₀) rfl
      have hsplit : pr.symbols = pr.symbols.take d ++ s :: pr.symbols.drop (d + 1) := by
        obtain ⟨hd, rfl⟩ := List.getElem?_eq_some_iff.mp hs
        rw [← drop_eq_getElem_cons hd, take_append_drop]
      exact .outer h0 (hp.mem_transitions hp.explored hpr h0) hsplit hnull (he.reach? hp.explored hmem hdrop₁) hfollow

lemma skip (hstart : start ∉ g.nullable) (h : Awaits g p c a (r :: q :: qs)) (hr : c.goto? q s = some r)
    (hs : s ∈ g.nullable) : Awaits g p c a (q :: qs) := by
  generalize hst : r :: q :: qs = st at h
  induction h generalizing r s with
  | starts hstarts =>
    obtain ⟨rfl, -⟩ := List.cons.inj hst
    obtain ⟨i, hi, hnext⟩ := hp.explored.exists_expected hr
    exact .starts (.past hi hnext hs hr hstarts)
  | accept hi ha =>
    obtain ⟨rfl, -⟩ := List.cons.inj hst
    obtain ⟨-, hfirst⟩ := hp.explored.retreat hr hi
    rw [hp.first.2] at hfirst
    obtain rfl : start = s := Option.some.inj hfirst
    exact absurd hs hstart
  | @back pr d _ q₀ r₀ _ qs₀ hpr hi hnull hdrop hgoto h₀ ih =>
    obtain ⟨rfl, rfl⟩ := List.cons.inj hst
    obtain ⟨hmem, hnext⟩ := hp.explored.retreat hr hi
    have hmore : ∀ t ∈ pr.symbols.drop d, t ∈ g.nullable := by
      intro t ht
      obtain ⟨hd, rfl⟩ := List.getElem?_eq_some_iff.mp hnext
      rw [drop_eq_getElem_cons hd] at ht
      rcases mem_cons.mp ht with rfl | ht
      · exact hs
      · exact hnull t ht
    -- a production of which nothing remains on the stack vanishes as a whole
    cases d with
    | zero =>
      obtain ⟨rfl, rfl⟩ := List.cons.inj hdrop
      exact ih hgoto (hp.sorted.vanishes hpr hmore) rfl
    | succ d => exact .back hpr hmem hmore hdrop hgoto h₀

theorem of_reduced (hstart : start ∉ g.nullable) (hpr : pr ∈ g.productions)
    (hi : pr.dotted pr.symbols.length ∈ c.itemsOf q) (hdrop : (q :: qs).drop pr.symbols.length = q' :: qs')
    (hr : c.goto? q' pr.name = some r) (h : Awaits g p c a (r :: q' :: qs')) : Awaits g p c a (q :: qs) := by
  cases hlen : pr.symbols.length with
  | zero =>
    rw [hlen] at hdrop
    obtain ⟨rfl, rfl⟩ := List.cons.inj hdrop
    refine h.skip hp hstart hr (hp.sorted.vanishes hpr ?_)
    rw [length_eq_zero_iff.mp hlen]
    exact forall_mem_nil _
  | succ d =>
    rw [hlen] at hi hdrop
    refine .back hpr hi ?_ hdrop hr h
    rw [← hlen, drop_length]
    exact forall_mem_nil _

end Awaits

end LispKit
