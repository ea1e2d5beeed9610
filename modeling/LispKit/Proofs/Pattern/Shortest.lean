import LispKit.Pattern.Match
import Mathlib.Tactic.Basic

/-! How much a match takes: a pattern that does not match the empty text takes a character wherever it matches. -/

namespace LispKit.Pattern

open Option

section

variable {ignoreCase : Bool} {next : Cursor → Option Cursor} {least : Nat} {most : Option Nat}
  {body : (Cursor → Option Cursor) → Cursor → Option Cursor}

def repeating (greedy : Bool) (body : (Cursor → Option Cursor) → Cursor → Option Cursor) (least : Nat) (most : Option Nat)
    (next : Cursor → Option Cursor) : Nat → Nat → Option Nat → Cursor → Option Cursor :=
  match greedy with
  | true => repeatMost body least most next
  | false => repeatLeast body least most next

lemma repeating_succ (greedy : Bool) (fuel n : Nat) (last : Option Nat) (s : Cursor) :
    repeating greedy body least most next (fuel + 1) n last s =
      let again := body (repeating greedy body least most next fuel (n + 1) (some s.position)) s
      let more := if mayRepeat most n && last != some s.position then again else none
      if n < least then again else if greedy = true then more.or (next s) else (next s).or more := by
  cases greedy with
  | true =>
    simp only [repeating, repeatMost, if_true]
    split
    · rfl
    · split
      · cases body (repeatMost body least most next fuel (n + 1) (some s.position)) s <;> rfl
      · rfl
  | false =>
    simp only [repeating, repeatLeast]
    cases next s <;> rfl

lemma run_alt (p q : Pattern) (s : Cursor) :
    run ignoreCase (alt p q) next s = (run ignoreCase p next s).or (run ignoreCase q next s) := by
  rw [run]
  cases run ignoreCase p next s <;> rfl

lemma run_possessive (p : Pattern) (s : Cursor) : run ignoreCase (times least most .possessive p) next s =
    (repeating true (run ignoreCase p) least most some (s.rest.length + least + 2) 0 none s).bind next := by
  rw [run, repeating]
  cases repeatMost (run ignoreCase p) least most some (s.rest.length + least + 2) 0 none s <;> rfl

end

def shortest : Pattern → Nat
  | empty | atStart | atEnd => 0
  | char _ | any | oneOf _ _ => 1
  | seq p q => p.shortest + q.shortest
  | alt p q => min p.shortest q.shortest
  | group _ p => p.shortest
  | times least _ _ p => least * p.shortest

structure Cursor.Ahead (k : Nat) (s t : Cursor) : Prop where
  taken : s.position + k ≤ t.position
  same : t.position + t.rest.length = s.position + s.rest.length

namespace Cursor.Ahead

variable {k l : Nat} {s t u : Cursor}

lemma refl (s : Cursor) : Ahead 0 s s :=
  ⟨Nat.le_refl _, rfl⟩

lemma trans (h : Ahead k s t) (h' : Ahead l t u) : Ahead (k + l) s u := by
  have hs := h.taken
  have ht := h'.taken
  exact ⟨by omega, h'.same.trans h.same⟩

lemma mono (h : Ahead k s t) (hl : l ≤ k) : Ahead l s t := by
  have hs := h.taken
  exact ⟨by omega, h.same⟩

end Cursor.Ahead

def Advances (k : Nat) (f next : Cursor → Option Cursor) : Prop :=
  ∀ s r, f s = some r → ∃ t, s.Ahead k t ∧ next t = some r

section Advances

variable {k l : Nat} {f g next : Cursor → Option Cursor} {least : Nat} {most : Option Nat}
  {body : (Cursor → Option Cursor) → Cursor → Option Cursor}

lemma Advances.refl (f : Cursor → Option Cursor) : Advances 0 f f :=
  fun s _ hr => ⟨s, .refl s, hr⟩

lemma Advances.trans (h : Advances k f g) (h' : Advances l g next) : Advances (k + l) f next := by
  intro s r hr
  obtain ⟨t, ht, hr⟩ := h s r hr
  obtain ⟨u, hu, hr⟩ := h' t r hr
  exact ⟨u, ht.trans hu, hr⟩

lemma Advances.mono (h : Advances k f next) (hl : l ≤ k) : Advances l f next := by
  intro s r hr
  obtain ⟨t, ht, hr⟩ := h s r hr
  exact ⟨t, ht.mono hl, hr⟩

lemma advances_take (test : Char → Bool) (next : Cursor → Option Cursor) : Advances 1 (Cursor.take test next) next := by
  rintro ⟨rest, position, last⟩ r hr
  cases rest with
  | nil => cases hr
  | cons c rest =>
    simp only [Cursor.take] at hr
    split at hr
    · exact ⟨_, ⟨Nat.le_refl _, by simp only [List.length_cons]; omega⟩, hr⟩
    · cases hr

lemma eq_some_of_or {greedy : Bool} {a b : Option Cursor} {r : Cursor}
    (h : (if greedy = true then a.or b else b.or a) = some r) : a = some r ∨ b = some r := by
  split at h
  · exact (or_eq_some_iff.mp h).imp_right And.right
  · exact ((or_eq_some_iff.mp h).imp_right And.right).symm

variable (hb : ∀ next, Advances k (body next) next)

include hb

lemma advances_repeating (greedy : Bool) (next : Cursor → Option Cursor) (fuel n : Nat) (last : Option Nat)
    (hfuel : least ≤ n + fuel) : Advances ((least - n) * k) (repeating greedy body least most next fuel n last) next := by
  induction fuel generalizing n last with
  | zero =>
    rw [show least - n = 0 by omega, Nat.zero_mul]
    cases greedy <;> exact .refl next
  | succ fuel ih =>
    intro s r hr
    have hagain := (hb _).trans (ih (n + 1) (some s.position) (by omega)) s r
    rw [repeating_succ] at hr
    dsimp only at hr
    split at hr
    · rename_i hn
      rw [show least - n = 1 + (least - (n + 1)) by omega, Nat.add_mul, Nat.one_mul]
      exact hagain hr
    · rename_i hn
      rw [show least - n = 0 by omega, Nat.zero_mul]
      rcases eq_some_of_or hr with hr | hr
      · split at hr
        · obtain ⟨t, ht, hr⟩ := hagain hr
          exact ⟨t, ht.mono (Nat.zero_le _), hr⟩
        · cases hr
      · exact ⟨s, .refl s, hr⟩

end Advances

lemma advances_run (ignoreCase : Bool) (p : Pattern) (next : Cursor → Option Cursor) :
    Advances p.shortest (run ignoreCase p next) next := by
  induction p generalizing next with
  | empty => exact .refl next
  | char c => exact advances_take _ next
  | any => exact advances_take _ next
  | oneOf negated members => exact advances_take _ next
  | atStart =>
    intro s r hr
    rw [run] at hr
    split at hr
    · exact ⟨s, .refl s, hr⟩
    · cases hr
  | atEnd =>
    intro s r hr
    rw [run] at hr
    split at hr
    · exact ⟨s, .refl s, hr⟩
    · exact ⟨s, .refl s, hr⟩
    · cases hr
  | seq p q hp hq => exact (hp _).trans (hq next)
  | alt p q hp hq =>
    intro s r hr
    rw [run_alt] at hr
    rcases or_eq_some_iff.mp hr with hr | ⟨-, hr⟩
    · exact (hp next).mono (Nat.min_le_left _ _) s r hr
    · exact (hq next).mono (Nat.min_le_right _ _) s r hr
  | group n p hp =>
    intro s r hr
    obtain ⟨t, ht, hr⟩ := hp _ s r hr
    exact ⟨{ t with lastGroup := some n }, ⟨ht.taken, ht.same⟩, hr⟩
  | times least most greed p hp =>
    have hfuel : ∀ s : Cursor, least ≤ 0 + (s.rest.length + least + 2) := by
      intro s
      omega
    intro s r hr
    cases greed with
    | most => exact advances_repeating hp true next _ 0 none (hfuel s) s r hr
    | least => exact advances_repeating hp false next _ 0 none (hfuel s) s r hr
    | possessive =>
      rw [run_possessive] at hr
      obtain ⟨t, ht, hr⟩ := bind_eq_some_iff.mp hr
      obtain ⟨u, hu, ht⟩ := advances_repeating hp true some _ 0 none (hfuel s) s t ht
      obtain rfl := Option.some.inj ht
      exact ⟨_, hu, hr⟩

def AcceptsEmpty (f : Cursor → Option Cursor) : Prop :=
  ∀ s, s.rest = [] → s.position = 0 → (f s).isSome

lemma acceptsEmpty_some : AcceptsEmpty some :=
  fun _ _ _ => rfl

section AcceptsEmpty

variable {next : Cursor → Option Cursor} {least : Nat} {most : Option Nat}
  {body : (Cursor → Option Cursor) → Cursor → Option Cursor} (hn : AcceptsEmpty next)

include hn

lemma acceptsEmpty_repeating (greedy : Bool) (fuel n : Nat) (last : Option Nat)
    (hb : least ≤ n ∨ ∀ f, AcceptsEmpty f → AcceptsEmpty (body f)) :
    AcceptsEmpty (repeating greedy body least most next fuel n last) := by
  induction fuel generalizing n last with
  | zero => cases greedy <;> exact hn
  | succ fuel ih =>
    intro s hs hposition
    rw [repeating_succ]
    dsimp only
    split
    · have hbody := hb.resolve_left (by omega)
      exact hbody _ (ih _ _ (.inr hbody)) s hs hposition
    · split <;> rw [isSome_or, hn s hs hposition]
      · exact Bool.or_true _
      · exact Bool.true_or _

end AcceptsEmpty

lemma acceptsEmpty_run (ignoreCase : Bool) {p : Pattern} (hp : p.shortest = 0) {next : Cursor → Option Cursor}
    (hn : AcceptsEmpty next) : AcceptsEmpty (run ignoreCase p next) := by
  induction p generalizing next with
  | empty => exact hn
  | char c => cases hp
  | any => cases hp
  | oneOf negated members => cases hp
  | atStart =>
    intro s hs hposition
    rw [run, if_pos hposition]
    exact hn s hs hposition
  | atEnd =>
    intro s hs hposition
    simp only [run, hs]
    exact hn s hs hposition
  | seq p q ihp ihq =>
    obtain ⟨hp, hq⟩ := Nat.add_eq_zero_iff.mp hp
    exact ihp hp (ihq hq hn)
  | alt p q ihp ihq =>
    intro s hs hposition
    rw [run_alt, isSome_or, Bool.or_eq_true]
    rcases Nat.min_eq_zero_iff.mp hp with hp | hq
    · exact .inl (ihp hp hn s hs hposition)
    · exact .inr (ihq hq hn s hs hposition)
  | group n p ih => exact ih hp fun s hs hposition => hn _ hs hposition
  | times least most greed p ih =>
    have hb : least ≤ 0 ∨ ∀ f, AcceptsEmpty f → AcceptsEmpty (run ignoreCase p f) :=
      (Nat.mul_eq_zero.mp hp).imp Nat.le_of_eq fun hp f hf => ih hp hf
    intro s hs hposition
    cases greed with
    | most => exact acceptsEmpty_repeating hn true _ 0 none hb s hs hposition
    | least => exact acceptsEmpty_repeating hn false _ 0 none hb s hs hposition
    | possessive =>
      -- The repetition ends where it began, as there is nothing to take.
      have hrepeat : AcceptsEmpty (repeating true (run ignoreCase p) least most some (s.rest.length + least + 2) 0 none) :=
        acceptsEmpty_repeating acceptsEmpty_some true _ 0 none hb
      obtain ⟨t, ht⟩ := isSome_iff_exists.mp (hrepeat s hs hposition)
      obtain ⟨u, hu, hut⟩ := advances_repeating (advances_run ignoreCase p) true some _ 0 none (by omega) s t ht
      obtain rfl := Option.some.inj hut
      have htaken := hu.taken
      have hsame := hu.same
      rw [hs, List.length_nil, hposition] at hsame
      rw [run_possessive, ht, bind_some]
      exact hn _ (List.length_eq_zero_iff.mp (by omega)) (by omega)

lemma length_pos_of_match? {p : Pattern} {ignoreCase : Bool} (hp : p.match? ignoreCase 0 [] = none) {position : Nat}
    {rest : List Char} {m : Match} (h : p.match? ignoreCase position rest = some m) : 0 < m.length := by
  have hpos : 0 < p.shortest := by
    refine Nat.pos_of_ne_zero fun hzero => ?_
    have haccepts := acceptsEmpty_run ignoreCase hzero acceptsEmpty_some ⟨[], 0, none⟩ rfl rfl
    rw [map_eq_none_iff.mp hp] at haccepts
    cases haccepts
  obtain ⟨s, hs, rfl⟩ := map_eq_some_iff.mp h
  obtain ⟨t, ht, hst⟩ := advances_run ignoreCase p some _ s hs
  obtain rfl := Option.some.inj hst
  have htaken := ht.taken
  dsimp only at htaken ⊢
  omega

end LispKit.Pattern
