import LispKit.Pattern.Reader
import Mathlib.Tactic.Basic
import Mathlib.Tactic.SplitIfs

/-! What the parts of a pattern take from the front of a text, and that they take the same where a closing parenthesis
follows the text. -/

namespace LispKit.Pattern.Reader

open List

variable {α β : Type} {s t : Reader}

lemma bind_eq_ok {ε : Type} {x : Except ε α} {f : α → Except ε β} {b : β} (h : x >>= f = .ok b) :
    ∃ a, x = .ok a ∧ f a = .ok b := by
  cases x with
  | error e => cases h
  | ok a => exact ⟨a, rfl, h⟩

structure Takes (f : Reader → Except ReadError (α × Reader)) (s : Reader) (a : α) (t : Reader) : Prop where
  only : t = { s with rest := t.rest }
  suffix : t.rest <:+ s.rest
  framed : ∀ u s', s'.rest = s.rest ++ ')' :: u → f s' = .ok (a, { s' with rest := t.rest ++ ')' :: u })

section Lists

variable {p : Char → Bool} (hp : p ')' = false)

include hp

lemma takeWhile_framed (w u : List Char) : (w ++ ')' :: u).takeWhile p = w.takeWhile p := by
  induction w with
  | nil => simp [hp]
  | cons c w ih =>
    rw [cons_append, takeWhile_cons, takeWhile_cons, ih]

lemma dropWhile_framed (w u : List Char) : (w ++ ')' :: u).dropWhile p = w.dropWhile p ++ ')' :: u := by
  induction w with
  | nil => simp [hp]
  | cons c w ih =>
    rw [cons_append, dropWhile_cons, dropWhile_cons, ih]
    split <;> rfl

lemma takeWhile_take_framed (n : Nat) (w u : List Char) :
    ((w ++ ')' :: u).take n).takeWhile p = (w.take n).takeWhile p := by
  induction n generalizing w with
  | zero => rfl
  | succ n ih =>
    cases w with
    | nil => simp [hp]
    | cons c w =>
      rw [cons_append, take_succ_cons, take_succ_cons, takeWhile_cons, takeWhile_cons, ih]

end Lists

section Escapes

variable {m : ClassMember} {width : Nat}

lemma takes_coded {letter c : Char} (h : coded letter width s = .ok (c, t)) :
    Takes (coded letter width) s c t := by
  unfold coded at h
  dsimp only at h
  split at h
  · rename_i n hn
    split at h
    · rename_i hlen
      obtain ⟨rfl, rfl⟩ := Prod.mk.inj (Except.ok.inj h)
      refine ⟨rfl, drop_suffix _ _, fun u s' hs => ?_⟩
      have hwidth : width ≤ s.rest.length := by
        have hle := (takeWhile_sublist (l := s.rest.take width)
          (p := fun c => (Text.Literal.hexValue? [c]).isSome)).length_le
        simp only [Bool.and_eq_true, decide_eq_true_eq, length_take] at hlen hle
        omega
      rw [coded, hs, takeWhile_take_framed (by decide), hn]
      simp only [if_pos hlen, drop, hs, drop_append_of_le_length hwidth]
    · cases h
  · cases h

lemma takes_code {letter : Char} (f : Reader → Except ReadError (ClassMember × Reader)) {c : Char} {rest : List Char}
    (hs : s.rest = c :: rest) (hf : ∀ s' rest', s'.rest = c :: rest' →
      f s' = (coded letter width { s' with rest := rest' }).map fun x => (.single x.1, x.2))
    (h : f s = .ok (m, t)) : Takes f s m t := by
  rw [hf s rest hs] at h
  cases hc : coded letter width { s with rest := rest } with
  | error e =>
    rw [hc] at h
    cases h
  | ok x =>
    rw [hc] at h
    obtain ⟨rfl, rfl⟩ := Prod.mk.inj (Except.ok.inj h)
    have hcode := takes_coded hc
    refine ⟨hcode.only, hcode.suffix.trans (hs ▸ suffix_cons c rest), fun u s' hs' => ?_⟩
    rw [hs, cons_append] at hs'
    rw [hf s' _ hs', hcode.framed u { s' with rest := rest ++ ')' :: u } rfl]
    rfl

lemma takes_escape {inClass : Bool} (h : escape inClass s = .ok (m, t)) : Takes (escape inClass) s m t := by
  cases hrest : s.rest with
  | nil =>
    rw [escape, hrest] at h
    cases h
  | cons c rest =>
    have hsuffix : rest <:+ s.rest := hrest ▸ suffix_cons c rest
    have hcons : ∀ {u : List Char} {s' : Reader}, s'.rest = s.rest ++ ')' :: u → s'.rest = c :: (rest ++ ')' :: u) := by
      intro u s' hs
      rw [hs, hrest, cons_append]
    have hunfold := h
    rw [escape, hrest] at h
    dsimp only at h
    split at h
    · rename_i hcategory
      obtain ⟨rfl, rfl⟩ := Prod.mk.inj (Except.ok.inj h)
      refine ⟨rfl, hsuffix, fun u s' hs => ?_⟩
      simp only [escape, hcons hs, hcategory]
    · rename_i hcategory hcontrol
      obtain ⟨rfl, rfl⟩ := Prod.mk.inj (Except.ok.inj h)
      refine ⟨rfl, hsuffix, fun u s' hs => ?_⟩
      simp only [escape, hcons hs, hcategory, hcontrol]
    · rename_i hcategory hcontrol
      split_ifs at h with hx hu hl hb hoctal hvalue hdigit hclass
      any_goals obtain ⟨rfl, rfl⟩ := Prod.mk.inj (Except.ok.inj h)
      · subst hx
        exact takes_code (escape inClass) hrest (fun s' rest' hs' => by rw [escape, hs']; rfl) hunfold
      · subst hu
        exact takes_code (escape inClass) hrest (fun s' rest' hs' => by rw [escape, hs']; rfl) hunfold
      · subst hl
        exact takes_code (escape inClass) hrest (fun s' rest' hs' => by rw [escape, hs']; rfl) hunfold
      · refine ⟨rfl, hsuffix, fun u s' hs => ?_⟩
        simp only [escape, hcons hs, *, if_true, if_false]
      · refine ⟨rfl, (drop_suffix _ _).trans hsuffix, fun u s' hs => ?_⟩
        have hlen : ((rest.take 2).takeWhile Text.Literal.isOctal).length ≤ rest.length :=
          ((takeWhile_sublist _).trans (take_sublist 2 rest)).length_le
        simp only [escape, hcons hs, hcategory, hcontrol, if_neg hx, if_neg hu, if_neg hl, if_neg hb,
          takeWhile_take_framed (p := Text.Literal.isOctal) rfl, if_pos hoctal, if_pos hvalue, drop,
          drop_append_of_le_length hlen]
      · cases h
      · cases h
      · cases h
      · cases h
      · refine ⟨rfl, hsuffix, fun u s' hs => ?_⟩
        simp only [escape, hcons hs, takeWhile_take_framed (p := Text.Literal.isOctal) rfl, *, if_false, Bool.false_eq_true]

end Escapes

section Classes

variable {m : ClassMember} {members found : List ClassMember}

lemma takes_classItem {text : String} {start : Nat} (h : classItem s start = .ok (m, text, t)) (start' : Nat) :
    t = { s with rest := t.rest } ∧ t.rest <:+ s.rest ∧ ∀ u s', s'.rest = s.rest ++ ')' :: u →
      ∃ text', classItem s' start' = .ok (m, text', { s' with rest := t.rest ++ ')' :: u }) := by
  unfold classItem at h
  split at h
  · cases h
  · rename_i rest hrest
    obtain ⟨⟨m', t'⟩, he, h⟩ := bind_eq_ok h
    obtain ⟨rfl, -, rfl⟩ : m' = m ∧ _ ∧ t' = t := by simpa using h
    have hescape := takes_escape he
    refine ⟨hescape.only, hescape.suffix.trans (hrest ▸ suffix_cons _ rest), fun u s' hs => ?_⟩
    rw [hrest, cons_append] at hs
    simp only [classItem, hs]
    rw [hescape.framed u { s' with rest := rest ++ ')' :: u } rfl]
    exact ⟨_, rfl⟩
  · rename_i c rest hne hrest
    obtain ⟨rfl, -, rfl⟩ : _ = m ∧ _ ∧ _ = t := by simpa using h
    refine ⟨rfl, hrest ▸ suffix_cons c rest, fun u s' hs => ?_⟩
    rw [hrest, cons_append] at hs
    simp only [classItem, hs]
    exact ⟨_, rfl⟩

lemma ok_bind (a : α) (f : α → Except ReadError β) : (Except.ok a >>= f) = f a :=
  rfl

lemma takes_classMembers {start fuel : Nat} (h : classMembers start fuel members s = .ok (found, t)) (start' : Nat)
    {fuel' : Nat} (hfuel : fuel ≤ fuel') : Takes (classMembers start' fuel' members) s found t := by
  induction fuel generalizing members s fuel' with
  | zero => cases h
  | succ fuel ih =>
    obtain ⟨fuel', rfl⟩ : ∃ n, fuel' = n + 1 := ⟨fuel' - 1, by omega⟩
    rw [classMembers] at h
    split at h
    · cases h
    · rename_i c rest hrest
      have hcons : ∀ {u : List Char} {s' : Reader}, s'.rest = s.rest ++ ')' :: u → s'.rest = c :: (rest ++ ')' :: u) := by
        intro u s' hs
        rw [hs, hrest, cons_append]
      split at h
      · rename_i hclose
        obtain ⟨rfl, rfl⟩ := Prod.mk.inj (Except.ok.inj h)
        refine ⟨rfl, hrest ▸ suffix_cons c rest, fun u s' hs => ?_⟩
        rw [classMembers, hcons hs]
        simp only [if_pos hclose]
      · rename_i hopen
        obtain ⟨⟨first, text, s₁⟩, hfirst, h⟩ := bind_eq_ok h
        obtain ⟨honly, hsuffix, hframed⟩ := takes_classItem hfirst start'
        dsimp only at h
        split at h
        · cases h
        · rename_i after hafter
          obtain ⟨rfl, rfl⟩ := Prod.mk.inj (Except.ok.inj h)
          refine ⟨by rw [honly], ?_, fun u s' hs => ?_⟩
          · exact ((suffix_cons _ _).trans (suffix_cons _ _)).trans (hafter ▸ hsuffix)
          · obtain ⟨text', hitem⟩ := hframed u s' hs
            simp only [classMembers, hcons hs, if_neg hopen, hitem, hafter]
            rfl
        · rename_i after hshort hlong hafter
          obtain ⟨⟨last, text₂, s₂⟩, hlast, h⟩ := bind_eq_ok h
          obtain ⟨honly₂, hsuffix₂, hframed₂⟩ := takes_classItem hlast start'
          dsimp only at h
          split at h
          · rename_i a b ha hb
            split at h
            · cases h
            · rename_i hle
              have hmore := ih h (Nat.le_of_succ_le_succ hfuel)
              refine ⟨?_, ?_, fun u s' hs => ?_⟩
              · rw [hmore.only, honly₂, honly]
              · exact (hmore.suffix.trans hsuffix₂).trans ((suffix_cons _ _).trans (hafter ▸ hsuffix))
              · obtain ⟨text', hitem⟩ := hframed u s' hs
                obtain ⟨text'', hitem₂⟩ := hframed₂ u { s' with rest := after ++ ')' :: u } rfl
                rw [classMembers, hcons hs]
                simp only [if_neg hopen, hitem, hafter, ok_bind, cons_append]
                split
                · rename_i heq
                  simp at heq
                · rename_i heq
                  obtain ⟨-, heq⟩ := List.cons.inj heq
                  cases after with
                  | nil => exact (hshort rfl).elim
                  | cons d after =>
                    obtain ⟨rfl, -⟩ := List.cons.inj heq
                    exact (hlong after rfl).elim
                · rename_i heq
                  obtain ⟨-, rfl⟩ := List.cons.inj heq
                  rw [hitem₂]
                  simp only [ok_bind, ha, hb, if_neg hle]
                  exact hmore.framed u _ rfl
                · rename_i heq
                  exact (heq _ rfl).elim
          · cases h
        · rename_i hshort hlong hother
          have hmore := ih h (Nat.le_of_succ_le_succ hfuel)
          refine ⟨?_, ?_, fun u s' hs => ?_⟩
          · rw [hmore.only, honly]
          · exact hmore.suffix.trans hsuffix
          · obtain ⟨text', hitem⟩ := hframed u s' hs
            rw [classMembers, hcons hs]
            simp only [if_neg hopen, hitem, ok_bind]
            have hhead : ∀ after, s₁.rest ++ ')' :: u ≠ '-' :: after := by
              intro after heq
              cases hs₁ : s₁.rest with
              | nil =>
                rw [hs₁] at heq
                simp at heq
              | cons d rest =>
                rw [hs₁] at heq
                obtain ⟨rfl, -⟩ := List.cons.inj heq
                exact hother rest hs₁
            split
            · rename_i heq
              exact (hhead _ heq).elim
            · rename_i heq
              exact (hhead _ heq).elim
            · rename_i heq
              exact (hhead _ heq).elim
            · exact hmore.framed u _ rfl

lemma takes_readClass {p : Pattern} (h : readClass s = .ok (p, t)) : Takes readClass s p t := by
  have hfuel : ∀ {u : List Char} {s' : Reader}, s'.rest = s.rest ++ ')' :: u → s.rest.length + 1 ≤ s'.rest.length + 1 := by
    intro u s' hs
    rw [hs, length_append]
    omega
  unfold readClass at h
  dsimp only at h
  split at h
  · rename_i rest hrest
    obtain ⟨⟨found, s₁⟩, hfound, h⟩ := bind_eq_ok h
    obtain ⟨rfl, rfl⟩ := Prod.mk.inj (Except.ok.inj h)
    have hmembers := takes_classMembers hfound 0 (Nat.le_refl _)
    refine ⟨hmembers.only, hmembers.suffix.trans (hrest ▸ suffix_cons _ rest), fun u s' hs => ?_⟩
    have hframed := (takes_classMembers hfound (s'.position - 1) (hfuel hs)).framed u { s' with rest := rest ++ ')' :: u } rfl
    have hs' : s'.rest = '^' :: (rest ++ ')' :: u) := by rw [hs, hrest, cons_append]
    rw [hs'] at hframed
    simp only [readClass, hs', hframed, ok_bind]
  · rename_i hother
    obtain ⟨⟨found, s₁⟩, hfound, h⟩ := bind_eq_ok h
    obtain ⟨rfl, rfl⟩ := Prod.mk.inj (Except.ok.inj h)
    have hmembers := takes_classMembers hfound 0 (Nat.le_refl _)
    refine ⟨hmembers.only, hmembers.suffix, fun u s' hs => ?_⟩
    rw [readClass]
    split
    · rename_i rest hrest
      rw [hs] at hrest
      cases hs₀ : s.rest with
      | nil =>
        rw [hs₀] at hrest
        simp at hrest
      | cons c rest =>
        rw [hs₀] at hrest
        obtain ⟨rfl, -⟩ := List.cons.inj hrest
        exact (hother rest hs₀).elim
    · dsimp only
      rw [(takes_classMembers hfound (s'.position - 1) (hfuel hs)).framed u s' hs]
      rfl

end Classes

section Repetitions

lemma bounds?_framed {u : List Char} {s' : Reader} (hs : s'.rest = s.rest ++ ')' :: u) : bounds? s' =
    (bounds? s).map fun b => (b.1, b.2.1, { s' with rest := b.2.2.rest ++ ')' :: u }) := by
  have hdigit : Char.isDigit ')' = false := by decide
  have htake := takeWhile_framed hdigit
  have hdrop := dropWhile_framed hdigit
  have hhead : ∀ {w rest : List Char} {c : Char}, c ≠ ')' → w ++ ')' :: u = c :: rest → ∃ rest', w = c :: rest' := by
    intro w rest c hc hw
    cases w with
    | nil =>
      obtain ⟨rfl, -⟩ := List.cons.inj hw
      exact (hc rfl).elim
    | cons d w =>
      obtain ⟨rfl, -⟩ := List.cons.inj hw
      exact ⟨w, rfl⟩
  rw [bounds?, bounds?, hs]
  split
  · rename_i hbrace
    obtain ⟨rest', hw⟩ := hhead (by decide) hbrace
    simp [hw]
  · rename_i hnone
    split
    · rename_i hbrace
      rw [hbrace] at hnone
      exact (hnone _ rfl).elim
    · simp only [htake, hdrop]
      split
      · rename_i hcomma
        obtain ⟨rest', hw⟩ := hhead (by decide) hcomma
        rw [hw] at hcomma ⊢
        obtain ⟨-, rfl⟩ := List.cons.inj hcomma
        simp only [append_eq, htake, hdrop]
        split
        · rename_i hclose
          obtain ⟨rest'', hw'⟩ := hhead (by decide) hclose
          rw [hw'] at hclose ⊢
          obtain ⟨-, rfl⟩ := List.cons.inj hclose
          rfl
        · rename_i hopen
          split
          · rename_i hclose
            rw [hclose] at hopen
            exact (hopen _ rfl).elim
          · rfl
      · rename_i hclose
        obtain ⟨rest', hw⟩ := hhead (by decide) hclose
        rw [hw] at hclose ⊢
        obtain ⟨-, rfl⟩ := List.cons.inj hclose
        rfl
      · rename_i hcomma hopen
        split
        · rename_i hw
          rw [hw] at hcomma
          exact (hcomma _ rfl).elim
        · rename_i hw
          rw [hw] at hopen
          exact (hopen _ rfl).elim
        · rfl

lemma suffix_bounds? {least : Nat} {most : Option Nat} (h : bounds? s = some (least, most, t)) :
    t = { s with rest := t.rest } ∧ t.rest <:+ s.rest := by
  unfold bounds? at h
  split at h
  · cases h
  · dsimp only at h
    split at h
    · rename_i rest hcomma
      split at h
      · rename_i rest' hclose
        obtain ⟨-, -, rfl⟩ : _ ∧ _ ∧ _ = t := by simpa using h
        refine ⟨rfl, ?_⟩
        have hrest : rest <:+ s.rest := (suffix_cons _ rest).trans (hcomma ▸ dropWhile_suffix _)
        exact ((suffix_cons _ rest').trans (hclose ▸ dropWhile_suffix _)).trans hrest
      · cases h
    · rename_i rest hclose
      obtain ⟨-, -, rfl⟩ : _ ∧ _ ∧ _ = t := by simpa using h
      exact ⟨rfl, (suffix_cons _ rest).trans (hclose ▸ dropWhile_suffix _)⟩
    · cases h

lemma greedOf_framed {u : List Char} {s' : Reader} (hs : s'.rest = s.rest ++ ')' :: u) :
    greedOf s' = ((greedOf s).1, { s' with rest := (greedOf s).2.rest ++ ')' :: u }) := by
  obtain ⟨rest, total, groups, names⟩ := s
  obtain ⟨rest', total', groups', names'⟩ := s'
  dsimp only at hs
  subst hs
  cases rest with
  | nil => rfl
  | cons c rest =>
    simp only [greedOf, cons_append]
    split <;> simp_all

lemma suffix_greedOf (s : Reader) : (greedOf s).2 = { s with rest := (greedOf s).2.rest } ∧ (greedOf s).2.rest <:+ s.rest := by
  rw [greedOf]
  split
  · rename_i rest hrest
    exact ⟨rfl, hrest ▸ suffix_cons _ rest⟩
  · rename_i rest hrest
    exact ⟨rfl, hrest ▸ suffix_cons _ rest⟩
  · exact ⟨rfl, suffix_rfl⟩

end Repetitions

lemma takes_groupName {name : String} (h : groupName s = .ok (name, t)) : Takes groupName s name t := by
  unfold groupName at h
  dsimp only at h
  split at h
  · split at h <;> cases h
  · rename_i c after hafter
    have hempty : (s.rest.dropWhile (· != '>')).isEmpty = false := by rw [hafter]; rfl
    have hname : ∀ u, (s.rest ++ ')' :: u).takeWhile (· != '>') = s.rest.takeWhile (· != '>') := by
      intro u
      rw [takeWhile_append, if_neg]
      intro hlen
      have := congrArg List.length (takeWhile_append_dropWhile (p := (· != '>')) (l := s.rest))
      rw [hafter, length_append, length_cons] at this
      omega
    split at h
    · cases h
    · rename_i hne
      split at h
      · rename_i hisName
        obtain ⟨rfl, rfl⟩ := Prod.mk.inj (Except.ok.inj h)
        refine ⟨rfl, (suffix_cons c after).trans (hafter ▸ dropWhile_suffix _), fun u s' hs => ?_⟩
        rw [groupName, hs, hname, dropWhile_append, hempty, hafter]
        simp only [Bool.false_eq_true, if_false, cons_append, if_neg hne, if_pos hisName]
      · cases h

end LispKit.Pattern.Reader
