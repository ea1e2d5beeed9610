import LispKit.Proofs.Pattern.Item
import Mathlib.Data.List.Forall2

/-! Joined patterns: patterns that are read each for itself keep what they match when they are joined as groups. -/

namespace LispKit.Pattern.Reader

open List

variable {verbose : Bool}

section Runs

lemma pieces_nil (fuel : Nat) (found : List Piece) {s : Reader} (hs : s.rest = []) :
    pieces verbose fuel found s = .ok (join found, s) := by
  cases fuel with
  | zero => rfl
  | succ fuel =>
    rw [pieces_succ, item, hs]
    rfl

def otherwise (verbose : Bool) (fuel : Nat) (x : Pattern × Reader) : Except ReadError (Pattern × Reader) :=
  match x.2.rest with
  | '|' :: rest => do
    let (q, s) ← alternatives verbose fuel { x.2 with rest := rest }
    .ok (.alt x.1 q, s)
  | _ => .ok x

lemma alternatives_succ (fuel : Nat) (s : Reader) :
    alternatives verbose (fuel + 1) s = pieces verbose fuel [] s >>= otherwise verbose fuel := by
  rw [alternatives]
  rfl

lemma grows_otherwise {fuel : Nat} (hrun : ∀ {s t p}, alternatives verbose fuel s = .ok (p, t) → Grows s t)
    {x y : Pattern × Reader} (h : otherwise verbose fuel x = .ok y) : Grows x.2 y.2 := by
  unfold otherwise at h
  split at h
  · rename_i rest hrest
    obtain ⟨⟨q, s⟩, hq, h⟩ := bind_eq_ok h
    obtain rfl := Except.ok.inj h
    exact .trans (.of_only rfl (hrest ▸ suffix_cons _ rest)) (hrun hq)
  · obtain rfl := Except.ok.inj h
    exact .refl _

lemma grows_run (fuel : Nat) : (∀ {s t : Reader} {p : Pattern}, alternatives verbose fuel s = .ok (p, t) → Grows s t) ∧
    ∀ {found : List Piece} {s t : Reader} {p : Pattern}, pieces verbose fuel found s = .ok (p, t) → Grows s t := by
  induction fuel with
  | zero =>
    constructor
    · intro s t p h
      obtain ⟨-, rfl⟩ := Prod.mk.inj (Except.ok.inj h)
      exact .refl _
    · intro found s t p h
      obtain ⟨-, rfl⟩ := Prod.mk.inj (Except.ok.inj h)
      exact .refl _
  | succ fuel ih =>
    obtain ⟨ihAlternatives, ihPieces⟩ := ih
    constructor
    · intro s t p h
      rw [alternatives_succ] at h
      obtain ⟨⟨q, s₁⟩, hq, h⟩ := bind_eq_ok h
      exact (ihPieces hq).trans (grows_otherwise ihAlternatives h)
    · intro found s t p h
      rw [pieces_succ] at h
      obtain ⟨i, hi, h⟩ := bind_eq_ok h
      cases i with
      | stop =>
        obtain ⟨-, rfl⟩ := Prod.mk.inj (Except.ok.inj h)
        exact .refl _
      | more found' s₁ => exact (grows_item hi rfl).1.trans (ihPieces h)
      | opened number s₁ =>
        obtain ⟨⟨q, s₂⟩, hq, h⟩ := bind_eq_ok h
        have hgrows := (grows_item hi rfl).1.trans (ihAlternatives hq)
        dsimp only at h
        split at h
        · rename_i rest hrest
          exact hgrows.trans (.trans (.of_only rfl (hrest ▸ suffix_cons _ rest)) (ihPieces h))
        · cases h

end Runs

section Framing

lemma bare_grouped {number number' : Option Nat} {p p' : Pattern} (hn : number'.isSome = number.isSome)
    (hp : p'.bare = p.bare) : (grouped number' p').bare = (grouped number p).bare := by
  cases number with
  | none =>
    obtain rfl : number' = none := by simpa using hn
    exact hp
  | some n =>
    obtain ⟨n', rfl⟩ : ∃ n', number' = some n' := by simpa [Option.isSome_iff_exists] using hn
    rw [grouped, grouped, bare, bare, hp]

/-- How a reading ends before the parenthesis: like the one without it, or, if a comment has run over it, at the end. -/
def Ends (u : List Char) (p : Pattern) (t : Reader) (lost : Bool) (x : Pattern × Reader) : Prop :=
  match lost with
  | false => x.1.bare = p.bare ∧ x.2.rest = t.rest ++ ')' :: u
  | true => x.2.rest = []

def AlternativesFramed (verbose : Bool) (fuel : Nat) : Prop :=
  ∀ {s t p}, alternatives verbose fuel s = .ok (p, t) → 2 * s.rest.length + 2 ≤ fuel →
    ∃ lost : Bool, (lost = true → t.rest = []) ∧ ∀ {u s' more x}, s'.rest = s.rest ++ ')' :: u → (lost = true → u = []) →
      alternatives verbose (fuel + more) s' = .ok x → Ends u p t lost x

def PiecesFramed (verbose : Bool) (fuel : Nat) : Prop :=
  ∀ {found s t p}, pieces verbose fuel found s = .ok (p, t) → 2 * s.rest.length + 1 ≤ fuel →
    ∃ lost : Bool, (lost = true → t.rest = []) ∧ ∀ {u s' found' more x}, s'.rest = s.rest ++ ')' :: u →
      found'.map Piece.bare = found.map Piece.bare → (lost = true → u = []) →
      pieces verbose (fuel + more) found' s' = .ok x → Ends u p t lost x

lemma pieces_comment {w : List Char} {s : Reader} {fuel : Nat} {found : List Piece} {x : Pattern × Reader}
    (hs : s.rest = '#' :: w) (h : pieces true (fuel + 1) found s = .ok x) :
    ∃ r, afterComment? w = some r ∧ pieces true fuel found { s with rest := r } = .ok x := by
  have hitem : item true found s = (dropComment { s with rest := w } >>= fun t => .ok (.more found t)) := by
    simp only [item, hs, itemAt]
    rfl
  rw [pieces_succ, hitem, bind_bind] at h
  obtain ⟨t, ht, h⟩ := bind_eq_ok h
  unfold dropComment at ht
  split at ht
  · obtain rfl := Except.ok.inj ht
    exact ⟨_, ‹_›, h⟩
  · cases ht

section Steps

variable {fuel : Nat} (ihAlternatives : AlternativesFramed verbose fuel) (ihPieces : PiecesFramed verbose fuel)

include ihAlternatives ihPieces

lemma alternativesFramed_succ : AlternativesFramed verbose (fuel + 1) := by
  intro s t p h hfuel
  rw [alternatives_succ] at h
  obtain ⟨⟨q, s₁⟩, hq, h⟩ := bind_eq_ok h
  have hlen := ((grows_run fuel).2 hq).suffix.length_le
  obtain ⟨lost, hnil, hrun⟩ := ihPieces hq (by omega)
  cases lost with
  | false =>
    unfold otherwise at h
    split at h
    · rename_i rest hrest
      dsimp only at hrest
      rw [hrest, length_cons] at hlen
      obtain ⟨⟨q₂, s₂⟩, hq₂, h⟩ := bind_eq_ok h
      obtain ⟨rfl, rfl⟩ := Prod.mk.inj (Except.ok.inj h)
      obtain ⟨lost, hnil₂, hrun₂⟩ := ihAlternatives hq₂ (by dsimp only; omega)
      refine ⟨lost, hnil₂, fun {u s' more x} hs hu h' => ?_⟩
      rw [Nat.add_right_comm, alternatives_succ] at h'
      obtain ⟨⟨q', s₁'⟩, hq', h'⟩ := bind_eq_ok h'
      obtain ⟨hbare, hs₁⟩ := hrun hs rfl (by simp) hq'
      have hrest' : s₁'.rest = '|' :: (rest ++ ')' :: u) := by rw [hs₁, hrest, cons_append]
      simp only [otherwise, hrest'] at h'
      obtain ⟨y, hy, h'⟩ := bind_eq_ok h'
      obtain rfl := Except.ok.inj h'
      have hends := hrun₂ rfl hu hy
      cases lost with
      | false => exact ⟨by rw [bare, bare, hbare, hends.1], hends.2⟩
      | true => exact hends
    · rename_i hother
      obtain ⟨rfl, rfl⟩ := Prod.mk.inj (Except.ok.inj h)
      refine ⟨false, by simp, fun {u s' more x} hs _ h' => ?_⟩
      rw [Nat.add_right_comm, alternatives_succ] at h'
      obtain ⟨⟨q', s₁'⟩, hq', h'⟩ := bind_eq_ok h'
      obtain ⟨hbare, hs₁⟩ := hrun hs rfl (by simp) hq'
      unfold otherwise at h'
      split at h'
      · rename_i rest hrest
        dsimp only at hrest hs₁
        rw [hs₁] at hrest
        cases hw : s₁.rest with
        | nil =>
          rw [hw] at hrest
          simp at hrest
        | cons c w =>
          rw [hw] at hrest
          obtain ⟨rfl, -⟩ := List.cons.inj hrest
          exact (hother w hw).elim
      · obtain rfl := Except.ok.inj h'
        exact ⟨hbare, hs₁⟩
  | true =>
    simp only [otherwise, hnil rfl] at h
    obtain ⟨rfl, rfl⟩ := Prod.mk.inj (Except.ok.inj h)
    refine ⟨true, hnil, fun {u s' more x} hs hu h' => ?_⟩
    rw [Nat.add_right_comm, alternatives_succ] at h'
    obtain ⟨y, hy, h'⟩ := bind_eq_ok h'
    have hend : y.2.rest = [] := hrun hs rfl hu hy
    simp only [otherwise, hend] at h'
    exact Except.ok.inj h' ▸ hend

lemma piecesFramed_succ : PiecesFramed verbose (fuel + 1) := by
  intro found s t p h hfuel
  by_cases hc : Comment verbose s
  · obtain ⟨rfl, rest, hrest, hruns⟩ := hc
    obtain ⟨r, hafter, h⟩ := pieces_comment hrest h
    obtain rfl : r = [] := by
      rcases afterComment?_append hafter with hends | ⟨hnil, -⟩
      · simp [hends] at hruns
      · exact hnil
    rw [pieces_nil _ _ rfl] at h
    obtain ⟨rfl, rfl⟩ := Prod.mk.inj (Except.ok.inj h)
    refine ⟨true, fun _ => rfl, fun {u s' found' more x} hs _ hu h' => ?_⟩
    obtain rfl := hu rfl
    rw [hrest, cons_append] at hs
    rw [Nat.add_right_comm] at h'
    obtain ⟨r', hafter', h'⟩ := pieces_comment hs h'
    obtain rfl := Option.some.inj (hafter'.symm.trans hruns)
    rw [pieces_nil _ _ rfl] at h'
    exact Except.ok.inj h' ▸ rfl
  rw [pieces_succ] at h
  obtain ⟨i, hi, h⟩ := bind_eq_ok h
  cases i with
  | stop =>
    obtain ⟨rfl, rfl⟩ := Prod.mk.inj (Except.ok.inj h)
    refine ⟨false, by simp, fun hs hf _ h' => ?_⟩
    rw [Nat.add_right_comm, pieces_succ] at h'
    obtain ⟨i', hi', h'⟩ := bind_eq_ok h'
    cases fits_item hf hs hc _ i' hi hi'
    obtain rfl := Except.ok.inj h'
    exact ⟨by rw [bare_join, bare_join, hf], hs⟩
  | more found₁ s₁ =>
    have hshort := (grows_item hi rfl).2
    obtain ⟨lost, hnil, hrun⟩ := ihPieces h (by omega)
    refine ⟨lost, hnil, fun hs hf hu h' => ?_⟩
    rw [Nat.add_right_comm, pieces_succ] at h'
    obtain ⟨i', hi', h'⟩ := bind_eq_ok h'
    cases fits_item hf hs hc _ i' hi hi' with
    | more hf₁ hs₁ => exact hrun hs₁ hf₁ hu h'
  | opened number s₁ =>
    have hshort := (grows_item hi rfl).2
    obtain ⟨⟨q, s₂⟩, hq, h⟩ := bind_eq_ok h
    have hlen := ((grows_run fuel).1 hq).suffix.length_le
    dsimp only at h
    split at h
    · rename_i rest hrest
      rw [hrest, length_cons] at hlen
      obtain ⟨_ | _, hnil, hrun⟩ := ihAlternatives hq (by omega)
      · obtain ⟨lost, hnil', hrun'⟩ := ihPieces h (by dsimp only; omega)
        refine ⟨lost, hnil', fun {u s' found' more x} hs hf hu h' => ?_⟩
        rw [Nat.add_right_comm, pieces_succ] at h'
        obtain ⟨i', hi', h'⟩ := bind_eq_ok h'
        cases fits_item hf hs hc _ i' hi hi' with
        | opened hn hs₁ =>
          obtain ⟨⟨q', s₂'⟩, hq', h'⟩ := bind_eq_ok h'
          obtain ⟨hbare, hs₂⟩ := hrun hs₁ (by simp) hq'
          have hrest' : s₂'.rest = ')' :: (rest ++ ')' :: u) := by rw [hs₂, hrest, cons_append]
          simp only [hrest'] at h'
          refine hrun' rfl ?_ hu h'
          simp only [map_cons, hf, Piece.bare, bare_grouped hn hbare]
      · rw [hrest] at hnil
        cases hnil rfl
    · cases h

end Steps

lemma framed_run (fuel : Nat) : AlternativesFramed verbose fuel ∧ PiecesFramed verbose fuel := by
  induction fuel with
  | zero => exact ⟨fun _ h => by omega, fun _ h => by omega⟩
  | succ fuel ih => exact ⟨alternativesFramed_succ ih.1 ih.2, piecesFramed_succ ih.1 ih.2⟩

end Framing

section Groups

def groupChars (name w : List Char) : List Char :=
  '(' :: '?' :: 'P' :: '<' :: (name ++ '>' :: (w ++ [')']))

def inside (s : Reader) (name rest : List Char) : Reader :=
  { s with rest := rest, groups := s.groups + 1, names := s.names ++ [(String.ofList name, s.groups + 1)] }

variable {s : Reader}

lemma groupHead_named {name rest : List Char} {number : Option Nat} {t : Reader} (hname : '>' ∉ name)
    (hs : s.rest = '?' :: 'P' :: '<' :: (name ++ '>' :: rest)) (h : groupHead s = .ok (number, t)) :
    number = some (s.groups + 1) ∧ t = inside s name rest := by
  have hall : ∀ c ∈ name, (c != '>') = true := fun c hc => bne_iff_ne.mpr fun h => hname (h ▸ hc)
  have htake : (name ++ '>' :: rest).takeWhile (· != '>') = name := by
    rw [takeWhile_append_of_pos hall]
    simp
  have hdrop : (name ++ '>' :: rest).dropWhile (· != '>') = '>' :: rest := by
    rw [dropWhile_append_of_pos hall]
    simp
  simp only [groupHead, hs] at h
  obtain ⟨⟨_, s₁⟩, hfound, h⟩ := bind_eq_ok h
  obtain ⟨⟨n, s₂⟩, hopen, h⟩ := bind_eq_ok h
  obtain ⟨rfl, rfl⟩ := Prod.mk.inj (Except.ok.inj h)
  simp only [groupName, htake, hdrop] at hfound
  split at hfound
  · cases hfound
  · split at hfound
    · obtain ⟨rfl, rfl⟩ := Prod.mk.inj (Except.ok.inj hfound)
      simp only [openGroup] at hopen
      split at hopen
      · cases hopen
      · obtain ⟨rfl, rfl⟩ := Prod.mk.inj (Except.ok.inj hopen)
        exact ⟨rfl, rfl⟩
    · cases hfound

/-- A group that was read: its pattern was, and a parenthesis followed. -/
lemma pieces_named {name rest : List Char} {fuel : Nat} {x : Pattern × Reader} (hname : '>' ∉ name)
    (hs : s.rest = '(' :: '?' :: 'P' :: '<' :: (name ++ '>' :: rest)) (h : pieces verbose (fuel + 1) [] s = .ok x) :
    ∃ q t rest', alternatives verbose fuel (inside s name rest) = .ok (q, t) ∧ t.rest = ')' :: rest' ∧
      pieces verbose fuel [.plain (.group (s.groups + 1) q)] { t with rest := rest' } = .ok x := by
  have hitem : item verbose [] s = (groupHead { s with rest := '?' :: 'P' :: '<' :: (name ++ '>' :: rest) } >>= fun x =>
      .ok (.opened x.1 x.2)) := by
    simp only [item, hs, itemAt]
    cases verbose <;> rfl
  rw [pieces_succ, hitem, bind_bind] at h
  obtain ⟨⟨number, s₁⟩, hhead, h⟩ := bind_eq_ok h
  obtain ⟨rfl, rfl⟩ := groupHead_named hname rfl hhead
  rw [ok_bind, follow] at h
  obtain ⟨⟨q, t⟩, hq, h⟩ := bind_eq_ok h
  dsimp only at h
  split at h
  · exact ⟨q, t, _, hq, ‹_›, h⟩
  · cases h

variable {flags : Flags} {gs : List (Nat × Pattern)} {fuel : Nat}

lemma alternatives_of_compile {w : List Char} {c : Compiled} (h : compileChars w flags = .ok c) :
    ∃ t, alternatives flags.verbose (2 * w.length + 2) ⟨w, w.length, 0, []⟩ = .ok (c.pattern, t) ∧ t.rest = [] ∧
      c.names = t.names ∧ c.ignoreCase = flags.ignoreCase := by
  obtain ⟨⟨p, t⟩, hp, h⟩ := bind_eq_ok h
  dsimp only at h
  split at h
  · rename_i hrest
    obtain rfl := Except.ok.inj h
    exact ⟨t, hp, List.isEmpty_iff.mp hrest, rfl, rfl⟩
  · cases h

/-- A pattern that can be read for itself and as a group is read alike in front of any text after the parenthesis. -/
lemma framed_of_compile {w name : List Char} {c c' : Compiled} (h : compileChars w flags = .ok c) (hname : '>' ∉ name)
    (h' : compileChars (groupChars name w) flags = .ok c') {u : List Char} {x : Pattern × Reader}
    (hs : s.rest = w ++ ')' :: u) (hfuel : 2 * w.length + 2 ≤ fuel) (hx : alternatives flags.verbose fuel s = .ok x) :
    x.1.bare = c.pattern.bare ∧ x.2.rest = ')' :: u := by
  obtain ⟨t, ht, hnil, -⟩ := alternatives_of_compile h
  obtain ⟨t', ht', -⟩ := alternatives_of_compile h'
  obtain ⟨_ | _, -, hrun⟩ := (framed_run (2 * w.length + 2)).1 ht (Nat.le_refl _)
  · obtain ⟨more, rfl⟩ := Nat.exists_eq_add_of_le hfuel
    obtain ⟨hbare, hrest⟩ := hrun hs (by simp) hx
    exact ⟨hbare, by rw [hrest, hnil, nil_append]⟩
  · -- A comment that runs over the parenthesis leaves the group open.
    exfalso
    have hlen : (groupChars name w).length = name.length + w.length + 6 := by
      simp only [groupChars, length_cons, length_append, length_nil]
      omega
    rw [hlen, show 2 * (name.length + w.length + 6) + 2 =
      2 * w.length + 2 + (2 * name.length + 10) + 1 + 1 by omega, alternatives_succ] at ht'
    obtain ⟨_, hq, -⟩ := bind_eq_ok ht'
    obtain ⟨q, r, rest, hq', hr, -⟩ := pieces_named hname rfl hq
    have hend : r.rest = [] := hrun rfl (fun _ => rfl) hq'
    cases hr.symm.trans hend

structure Part where
  name : List Char
  text : List Char
  own : Compiled

variable {parts : List Part}

structure Part.Valid (flags : Flags) (r : Part) : Prop where
  name : '>' ∉ r.name
  own : compileChars r.text flags = .ok r.own
  group : ∃ c, compileChars (groupChars r.name r.text) flags = .ok c

def chain : List (Nat × Pattern) → Pattern
  | [] => .empty
  | [g] => .group g.1 g.2
  | g :: gs => .alt (.group g.1 g.2) (chain gs)

def joined (parts : List Part) : List Char :=
  ['|'].intercalate (parts.map fun r => groupChars r.name r.text)

def tailOf (parts : List Part) : List Char :=
  if parts.isEmpty then [] else '|' :: joined parts

lemma joined_cons (r : Part) (parts : List Part) : joined (r :: parts) = groupChars r.name r.text ++ tailOf parts := by
  cases parts with
  | nil => simp [joined, tailOf, List.intercalate]
  | cons r' parts => simp [joined, tailOf, List.intercalate]

lemma pieces_tailOf (fuel : Nat) (found : List Piece) (parts : List Part) (hs : s.rest = tailOf parts) :
    pieces verbose fuel found s = .ok (join found, s) := by
  cases parts with
  | nil => exact pieces_nil fuel found hs
  | cons r parts =>
    cases fuel with
    | zero => rfl
    | succ fuel =>
      rw [pieces_succ, item, hs]
      rfl

lemma read_part {r : Part} {x : Pattern × Reader} (hr : r.Valid flags)
    (hs : s.rest = groupChars r.name r.text ++ tailOf parts) (hfuel : 2 * r.text.length + 2 ≤ fuel)
    (h : pieces flags.verbose (fuel + 1) [] s = .ok x) : ∃ q, x.1 = .group (s.groups + 1) q ∧
      q.bare = r.own.pattern.bare ∧ x.2.rest = tailOf parts ∧ (String.ofList r.name, s.groups + 1) ∈ x.2.names := by
  obtain ⟨c, hc⟩ := hr.group
  have hs' : s.rest = '(' :: '?' :: 'P' :: '<' :: (r.name ++ '>' :: (r.text ++ ')' :: tailOf parts)) := by
    rw [hs, groupChars]
    simp
  obtain ⟨q, t, rest, hq, hrest, h⟩ := pieces_named hr.name hs' h
  obtain ⟨hbare, hafter⟩ := framed_of_compile hr.own hr.name hc rfl hfuel hq
  obtain ⟨-, rfl⟩ := List.cons.inj (hrest.symm.trans hafter)
  rw [pieces_tailOf _ _ parts rfl] at h
  obtain rfl := Except.ok.inj h
  obtain ⟨more, hmore, -⟩ := ((grows_run _).1 hq).names
  refine ⟨q, rfl, hbare, rfl, ?_⟩
  dsimp only
  rw [hmore, inside]
  simp

/-- The groups of the parts, one after another, each with the number its name has. -/
def Chained (parts : List Part) (p : Pattern) (names : List (String × Nat)) : Prop :=
  ∃ gs : List (Nat × Pattern), p = chain gs ∧
    List.Forall₂ (fun r g => g.2.bare = r.own.pattern.bare ∧ (String.ofList r.name, g.1) ∈ names) parts gs

lemma read_joined {x : Pattern × Reader} (hne : parts ≠ []) (hv : ∀ r ∈ parts, r.Valid flags) (hs : s.rest = joined parts)
    (hfuel : 2 * s.rest.length + 2 ≤ fuel) (h : alternatives flags.verbose fuel s = .ok x) : Chained parts x.1 x.2.names := by
  induction parts generalizing fuel s x with
  | nil => exact (hne rfl).elim
  | cons r parts ih =>
    obtain ⟨hr, hparts⟩ := forall_mem_cons.mp hv
    rw [joined_cons] at hs
    have hlen : s.rest.length = r.name.length + r.text.length + 6 + (tailOf parts).length := by
      rw [hs, length_append]
      simp only [groupChars, length_cons, length_append, length_nil]
      omega
    obtain ⟨fuel, rfl⟩ : ∃ n, fuel = n + 1 + 1 := ⟨fuel - 2, by omega⟩
    rw [alternatives_succ] at h
    obtain ⟨⟨_, s₁⟩, hfirst, h⟩ := bind_eq_ok h
    obtain ⟨q, rfl, hbare, hrest, hmem⟩ := read_part hr hs (by omega) hfirst
    dsimp only at hrest hmem
    cases parts with
    | nil =>
      simp only [otherwise, hrest, tailOf, isEmpty_nil, if_true] at h
      obtain rfl := Except.ok.inj h
      exact ⟨[(s.groups + 1, q)], rfl, .cons ⟨hbare, hmem⟩ .nil⟩
    | cons r' parts =>
      have hbar : s₁.rest = '|' :: joined (r' :: parts) := hrest
      rw [hrest.symm.trans hbar, length_cons] at hlen
      simp only [otherwise, hbar] at h
      obtain ⟨y, hy, h⟩ := bind_eq_ok h
      obtain rfl := Except.ok.inj h
      obtain ⟨gs, hp, hall⟩ := ih (cons_ne_nil _ _) hparts rfl
        (show 2 * (joined (r' :: parts)).length + 2 ≤ fuel + 1 by omega) hy
      refine ⟨(s.groups + 1, q) :: gs, ?_, .cons ⟨hbare, ?_⟩ hall⟩
      · cases hall
        exact congrArg _ hp
      · obtain ⟨more, hmore, -⟩ := ((grows_run _).1 hy).names
        dsimp only
        rw [hmore]
        exact mem_append_left _ hmem

lemma compile_joined {c : Compiled} (hne : parts ≠ []) (hv : ∀ r ∈ parts, r.Valid flags)
    (h : compileChars (joined parts) flags = .ok c) :
    Chained parts c.pattern c.names ∧ (c.names.map Prod.snd).Pairwise (· < ·) := by
  obtain ⟨t, ht, -, hnames, -⟩ := alternatives_of_compile h
  obtain ⟨more, hmore, hsorted, -⟩ := ((grows_run _).1 ht).names
  rw [hnames]
  refine ⟨read_joined hne hv rfl (Nat.le_refl _) ht, ?_⟩
  rw [hmore, nil_append]
  exact hsorted

lemma chain_cons (g : Nat × Pattern) (hne : gs ≠ []) : chain (g :: gs) = .alt (.group g.1 g.2) (chain gs) := by
  cases gs with
  | nil => exact (hne rfl).elim
  | cons g' gs => rfl

lemma match?_chain (hne : gs ≠ []) (ignoreCase : Bool) (position : Nat) (rest : List Char) :
    (chain gs).match? ignoreCase position rest =
      gs.findSome? fun g => (Pattern.group g.1 g.2).match? ignoreCase position rest := by
  induction gs with
  | nil => exact (hne rfl).elim
  | cons g gs ih =>
    by_cases hgs : gs = []
    · subst hgs
      simp [chain]
    · rw [chain_cons g hgs, match?_alt, ih hgs, findSome?_cons]
      cases (Pattern.group g.1 g.2).match? ignoreCase position rest <;> rfl

end Groups

end LispKit.Pattern.Reader
