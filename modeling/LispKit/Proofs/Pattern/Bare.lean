import LispKit.Proofs.Pattern.Shortest

/-! Group numbers: they say which group was closed last, and nothing about what is matched. -/

namespace LispKit.Pattern

open Option

def bare : Pattern → Pattern
  | seq p q => seq p.bare q.bare
  | alt p q => alt p.bare q.bare
  | group _ p => group 0 p.bare
  | times least most greed p => times least most greed p.bare
  | p => p

def Cursor.place (s : Cursor) : List Char × Nat :=
  (s.rest, s.position)

def Agree (f g : Cursor → Option Cursor) : Prop :=
  ∀ s t, s.place = t.place → (f s).map Cursor.place = (g t).map Cursor.place

section Agree

variable {next next' f g k : Cursor → Option Cursor} {least : Nat} {most : Option Nat}
  {body body' : (Cursor → Option Cursor) → Cursor → Option Cursor}

lemma agree_some : Agree some some :=
  fun _ _ h => congrArg some h

lemma Agree.symm (h : Agree f g) : Agree g f :=
  fun s t hs => (h t s hs.symm).symm

lemma Agree.trans (h : Agree f g) (h' : Agree g k) : Agree f k :=
  fun s t hs => (h s s rfl).trans (h' s t hs)

lemma map_place_or {a b c d : Option Cursor} (h : a.map Cursor.place = b.map Cursor.place)
    (h' : c.map Cursor.place = d.map Cursor.place) : (a.or c).map Cursor.place = (b.or d).map Cursor.place := by
  rw [map_or, map_or, h, h']

lemma Agree.take (h : Agree next next') (test : Char → Bool) : Agree (Cursor.take test next) (Cursor.take test next') := by
  rintro ⟨rest, position, last⟩ ⟨_, _, last'⟩ hs
  obtain ⟨rfl, rfl⟩ := Prod.mk.inj hs
  cases rest with
  | nil => rfl
  | cons c rest =>
    simp only [Cursor.take]
    split
    · exact h _ _ rfl
    · rfl

variable (least most) (hb : ∀ f g, Agree f g → Agree (body f) (body' g))

include hb

lemma Agree.repeating (greedy : Bool) (h : Agree next next') (fuel n : Nat) (last : Option Nat) :
    Agree (repeating greedy body least most next fuel n last) (Pattern.repeating greedy body' least most next' fuel n last) := by
  induction fuel generalizing n last with
  | zero => cases greedy <;> exact h
  | succ fuel ih =>
    intro s t hs
    have hposition : s.position = t.position := congrArg Prod.snd hs
    have hagain := hb _ _ (ih (n + 1) (some t.position)) s t hs
    rw [repeating_succ, repeating_succ, hposition]
    dsimp only
    split
    · exact hagain
    · split <;> split
      · exact map_place_or hagain (h s t hs)
      · exact map_place_or rfl (h s t hs)
      · exact map_place_or (h s t hs) hagain
      · exact map_place_or (h s t hs) rfl

end Agree

lemma agree_run (ignoreCase : Bool) (p : Pattern) {next next' : Cursor → Option Cursor} (h : Agree next next') :
    Agree (run ignoreCase p next) (run ignoreCase p.bare next') := by
  induction p generalizing next next' with
  | empty => exact h
  | char c => exact h.take _
  | any => exact h.take _
  | oneOf negated members => exact h.take _
  | atStart =>
    intro s t hs
    have hposition : s.position = t.position := congrArg Prod.snd hs
    simp only [run, bare, hposition]
    split
    · exact h s t hs
    · rfl
  | atEnd =>
    intro s t hs
    have hrest : s.rest = t.rest := congrArg Prod.fst hs
    simp only [run, bare, hrest]
    split
    · exact h s t hs
    · exact h s t hs
    · rfl
  | seq p q hp hq => exact hp (hq h)
  | alt p q hp hq =>
    intro s t hs
    rw [bare, run_alt, run_alt]
    exact map_place_or (hp h s t hs) (hq h s t hs)
  | group n p hp =>
    apply hp
    intro s t hs
    exact h _ _ hs
  | times least most greed p hp =>
    have hb : ∀ f g, Agree f g → Agree (run ignoreCase p f) (run ignoreCase p.bare g) := fun f g hfg => hp hfg
    intro s t hs
    have hrest : s.rest = t.rest := congrArg Prod.fst hs
    cases greed with
    | most =>
      simp only [run, bare, hrest]
      exact Agree.repeating least most hb true h (t.rest.length + least + 2) 0 none s t hs
    | least =>
      simp only [run, bare, hrest]
      exact Agree.repeating least most hb false h (t.rest.length + least + 2) 0 none s t hs
    | possessive =>
      have hloop := Agree.repeating least most hb true agree_some (t.rest.length + least + 2) 0 none s t hs
      rw [bare, run_possessive, run_possessive, hrest]
      cases hr : repeating true (run ignoreCase p) least most some (t.rest.length + least + 2) 0 none s with
      | none =>
        rw [hr, map_none, eq_comm, map_eq_none_iff] at hloop
        rw [hloop]
        rfl
      | some r =>
        rw [hr, map_some, eq_comm, map_eq_some_iff] at hloop
        obtain ⟨r', hr', hplace⟩ := hloop
        rw [hr']
        exact h r r' hplace.symm

lemma match?_group {p q : Pattern} (h : p.bare = q.bare) (ignoreCase : Bool) (n position : Nat) (rest : List Char) :
    (group n p).match? ignoreCase position rest =
      (q.match? ignoreCase position rest).map fun m => ⟨m.length, some n⟩ := by
  let close : Cursor → Option Cursor := fun s => some { s with lastGroup := some n }
  let start : Cursor := ⟨rest, position, none⟩
  have hclose : Agree close some := fun s t hs => congrArg some hs
  have hagree : Agree (run ignoreCase p close) (run ignoreCase q some) := by
    have hp := agree_run ignoreCase p hclose
    rw [h] at hp
    exact hp.trans (agree_run ignoreCase q agree_some).symm
  have hlast : ∀ r, run ignoreCase p close start = some r → r.lastGroup = some n := by
    intro r hr
    obtain ⟨t, -, hr⟩ := advances_run ignoreCase p close start r hr
    obtain rfl := Option.some.inj hr
    rfl
  have hplace := hagree start start rfl
  change (run ignoreCase p close start).map _ = ((run ignoreCase q some start).map _).map _
  cases hr : run ignoreCase p close start with
  | none =>
    rw [hr, map_none, eq_comm, map_eq_none_iff] at hplace
    rw [hplace]
    rfl
  | some r =>
    rw [hr, map_some, eq_comm, map_eq_some_iff] at hplace
    obtain ⟨r', hr', hp⟩ := hplace
    have hposition : r'.position = r.position := congrArg Prod.snd hp
    rw [hr', map_some, map_some, map_some, hlast r hr, hposition]

lemma match?_alt (p q : Pattern) (ignoreCase : Bool) (position : Nat) (rest : List Char) :
    (alt p q).match? ignoreCase position rest =
      (p.match? ignoreCase position rest).or (q.match? ignoreCase position rest) := by
  rw [match?, run_alt, map_or]
  rfl

end LispKit.Pattern
