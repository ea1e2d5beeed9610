import LispKit.Proofs.Pattern.Bare
import LispKit.Proofs.Pattern.Taken
import Mathlib.Data.List.TakeWhile

/-! Reading a pattern item by item: what one step of the reader can do, and that it does the same in front of a closing
parenthesis. -/

namespace LispKit.Pattern.Reader

open List

inductive Item where
  | stop
  | more (found : List Piece) (s : Reader)
  | opened (number : Option Nat) (s : Reader)

def escaped (m : ClassMember) : Pattern :=
  match singleChar? m with
  | some d => .char d
  | none => .oneOf false [m]

def itemAt (verbose : Bool) (c : Char) (here : Nat) (found : List Piece) (after : Reader) : Except ReadError Item :=
  let add (p : Pattern) (s : Reader) : Except ReadError Item := .ok (.more (.plain p :: found) s)
  let again (x : List Piece × Reader) : Except ReadError Item := .ok (.more x.1 x.2)
  if c = '|' || c = ')' then .ok .stop
  else if verbose && isVerboseBlank c then .ok (.more found after)
  else if verbose && c = '#' then do
    let s ← dropComment after
    .ok (.more found s)
  else if c = '\\' then do
    let (m, s) ← escape false after
    add (escaped m) s
  else if c = '[' then do
    let (p, s) ← readClass after
    add p s
  else if c = '*' then repeatLast 0 none here found after >>= again
  else if c = '+' then repeatLast 1 none here found after >>= again
  else if c = '?' then repeatLast 0 (some 1) here found after >>= again
  else if c = '\x7b' then
    match bounds? after with
    | none => add (.char c) after
    | some (least, most, s) =>
      if most.any (· < least) then fail .bounds (here + 1) else repeatLast least most here found s >>= again
  else if c = '.' then add .any after
  else if c = '^' then .ok (.more (.anchor .atStart :: found) after)
  else if c = '$' then .ok (.more (.anchor .atEnd :: found) after)
  else if c = '(' then do
    let (number, s) ← groupHead after
    .ok (.opened number s)
  else add (.char c) after

def item (verbose : Bool) (found : List Piece) (s : Reader) : Except ReadError Item :=
  match s.rest with
  | [] => .ok .stop
  | c :: rest => itemAt verbose c s.position found { s with rest := rest }

def grouped (number : Option Nat) (p : Pattern) : Pattern :=
  match number with
  | some n => .group n p
  | none => p

def follow (verbose : Bool) (fuel : Nat) (found : List Piece) (s : Reader) : Item → Except ReadError (Pattern × Reader)
  | .stop => .ok (join found, s)
  | .more found s => pieces verbose fuel found s
  | .opened number t => do
    let (p, t) ← alternatives verbose fuel t
    match t.rest with
    | ')' :: rest => pieces verbose fuel (.plain (grouped number p) :: found) { t with rest := rest }
    | _ => fail .unterminatedGroup s.position

section Items

variable {α β γ : Type}

lemma bind_bind (x : Except ReadError α) (f : α → Except ReadError β) (g : β → Except ReadError γ) :
    x >>= f >>= g = x >>= fun a => f a >>= g := by
  cases x <;> rfl

lemma ite_bind_congr {c : Prop} [Decidable c] {x y : Except ReadError β} {a b : Except ReadError α}
    {f : α → Except ReadError β} (hx : x = a >>= f) (hy : y = b >>= f) :
    (if c then x else y) = (if c then a else b) >>= f := by
  split
  · exact hx
  · exact hy

lemma pieces_succ (verbose : Bool) (fuel : Nat) (found : List Piece) (s : Reader) :
    pieces verbose (fuel + 1) found s = item verbose found s >>= follow verbose fuel found s := by
  rw [pieces, item]
  cases s.rest with
  | nil => rfl
  | cons c rest =>
    dsimp only
    rw [itemAt]
    refine ite_bind_congr rfl (ite_bind_congr rfl (ite_bind_congr ?_ (ite_bind_congr ?_ (ite_bind_congr ?_
      (ite_bind_congr ?_ (ite_bind_congr ?_ (ite_bind_congr ?_ (ite_bind_congr ?_ (ite_bind_congr rfl
      (ite_bind_congr rfl (ite_bind_congr rfl (ite_bind_congr ?_ rfl))))))))))))
    · rw [bind_bind]
      rfl
    · rw [bind_bind]
      congr
      funext x
      rw [ok_bind, follow, escaped]
      cases singleChar? x.1 <;> rfl
    · rw [bind_bind]
      rfl
    · rw [bind_bind]
      rfl
    · rw [bind_bind]
      rfl
    · rw [bind_bind]
      rfl
    · cases bounds? { s with rest := rest } with
      | none => rfl
      | some b =>
        refine ite_bind_congr rfl ?_
        rw [bind_bind]
        rfl
    · rw [bind_bind]
      rfl

end Items

section Growth

variable {s t r : Reader}

structure Grows (s t : Reader) : Prop where
  suffix : t.rest <:+ s.rest
  groups : s.groups ≤ t.groups
  names : ∃ more, t.names = s.names ++ more ∧ (more.map Prod.snd).Pairwise (· < ·) ∧
    ∀ e ∈ more, s.groups < e.2 ∧ e.2 ≤ t.groups

namespace Grows

lemma of_only (hs : t = { s with rest := t.rest }) (h : t.rest <:+ s.rest) : Grows s t := by
  rw [hs]
  exact ⟨h, Nat.le_refl _, [], (append_nil _).symm, .nil, by simp⟩

lemma trans (h : Grows s t) (h' : Grows t r) : Grows s r := by
  obtain ⟨more, hmore, hsorted, hrange⟩ := h.names
  obtain ⟨more', hmore', hsorted', hrange'⟩ := h'.names
  refine ⟨h'.suffix.trans h.suffix, Nat.le_trans h.groups h'.groups, more ++ more', ?_, ?_, ?_⟩
  · rw [hmore', hmore, append_assoc]
  · rw [map_append]
    refine pairwise_append.mpr ⟨hsorted, hsorted', ?_⟩
    intro a ha b hb
    obtain ⟨e, he, rfl⟩ := mem_map.mp ha
    obtain ⟨e', he', rfl⟩ := mem_map.mp hb
    have h₁ := hrange e he
    have h₂ := hrange' e' he'
    omega
  · intro e he
    have h₁ := h.groups
    have h₂ := h'.groups
    rcases mem_append.mp he with he | he
    · have h₃ := hrange e he
      omega
    · have h₃ := hrange' e he
      omega

end Grows

lemma grows_openGroup {name : Option String} {place n : Nat} (h : openGroup name place s = .ok (n, t)) : Grows s t := by
  unfold openGroup at h
  dsimp only at h
  split at h
  · obtain ⟨-, rfl⟩ := Prod.mk.inj (Except.ok.inj h)
    exact ⟨suffix_rfl, Nat.le_succ _, [], (append_nil _).symm, .nil, by simp⟩
  · split at h
    · cases h
    · obtain ⟨-, rfl⟩ := Prod.mk.inj (Except.ok.inj h)
      exact ⟨suffix_rfl, Nat.le_succ _, _, rfl, pairwise_singleton _ _, by simp⟩

lemma grows_groupHead {number : Option Nat} (h : groupHead s = .ok (number, t)) : Grows s t := by
  unfold groupHead at h
  split at h
  · rename_i rest hrest
    obtain ⟨-, rfl⟩ := Prod.mk.inj (Except.ok.inj h)
    refine .of_only rfl ?_
    rw [hrest]
    exact (suffix_cons _ _).trans (suffix_cons _ _)
  · rename_i rest hrest
    obtain ⟨⟨name, s₁⟩, hname, h⟩ := bind_eq_ok h
    obtain ⟨⟨n, s₂⟩, hopen, h⟩ := bind_eq_ok h
    obtain ⟨-, rfl⟩ := Prod.mk.inj (Except.ok.inj h)
    have htakes := takes_groupName hname
    refine .trans (.of_only htakes.only (htakes.suffix.trans ?_)) (grows_openGroup hopen)
    rw [hrest]
    exact ((suffix_cons _ _).trans (suffix_cons _ _)).trans (suffix_cons _ _)
  · cases h
  · cases h
  · cases h
  · cases h
  · obtain ⟨⟨n, s₂⟩, hopen, h⟩ := bind_eq_ok h
    obtain ⟨-, rfl⟩ := Prod.mk.inj (Except.ok.inj h)
    exact grows_openGroup hopen

def Item.reader? : Item → Option Reader
  | stop => none
  | more _ s => some s
  | opened _ s => some s

def Advances (s : Reader) (x : Except ReadError Item) : Prop :=
  ∀ i, x = .ok i → ∀ t, i.reader? = some t → Grows s t

namespace Advances

variable {x y : Except ReadError Item}

lemma ite {c : Prop} [Decidable c] (hx : Advances s x) (hy : Advances s y) : Advances s (if c then x else y) := by
  split
  · exact hx
  · exact hy

lemma stop : Advances s (.ok .stop) := by
  rintro _ ⟨⟩ t ht
  cases ht

lemma more {found : List Piece} (h : Grows s t) : Advances s (.ok (.more found t)) := by
  rintro _ ⟨⟩ t ht
  obtain rfl := Option.some.inj ht
  exact h

lemma bind {α : Type} {x : Except ReadError α} {f : α → Except ReadError Item} (h : ∀ a, x = .ok a → Advances s (f a)) :
    Advances s (x >>= f) := by
  intro i hi
  obtain ⟨a, ha, hi⟩ := bind_eq_ok hi
  exact h a ha i hi

end Advances

lemma Grows.refl (s : Reader) : Grows s s :=
  .of_only rfl suffix_rfl

lemma grows_repeatLast {least sign : Nat} {most : Option Nat} {found found' : List Piece}
    (h : repeatLast least most sign found s = .ok (found', t)) : Grows s t := by
  unfold repeatLast at h
  split at h
  · cases h
  · cases h
  · cases h
  · obtain ⟨-, rfl⟩ := Prod.mk.inj (Except.ok.inj h)
    exact .of_only (suffix_greedOf s).1 (suffix_greedOf s).2

lemma suffix_afterComment? {w r : List Char} (h : afterComment? w = some r) : r <:+ w := by
  fun_induction afterComment? w with
  | case1 => exact Option.some.inj h ▸ suffix_rfl
  | case2 => cases h
  | case3 c rest ih => exact ((ih h).trans (suffix_cons _ _)).trans (suffix_cons _ _)
  | case4 => exact Option.some.inj h ▸ suffix_cons _ _
  | case5 c rest _ _ _ ih => exact (ih h).trans (suffix_cons _ _)

lemma grows_dropComment (h : dropComment s = .ok t) : Grows s t := by
  unfold dropComment at h
  split at h
  · obtain rfl := Except.ok.inj h
    exact .of_only rfl (suffix_afterComment? ‹_›)
  · cases h

lemma advances_itemAt (verbose : Bool) (c : Char) (here : Nat) (found : List Piece) (s : Reader) :
    Advances s (itemAt verbose c here found s) := by
  have hrepeat : ∀ {least : Nat} {most : Option Nat} {t : Reader}, Grows s t → Advances s
      (repeatLast least most here found t >>= fun x => .ok (.more x.1 x.2)) :=
    fun ht => .bind fun x hx => .more (ht.trans (grows_repeatLast hx))
  have hchar : ∀ {p : Piece}, Advances s (.ok (.more (p :: found) s)) := .more (.refl s)
  rw [itemAt]
  refine .ite .stop (.ite (.more (.refl s)) (.ite (.bind ?_) (.ite (.bind ?_) (.ite (.bind ?_) (.ite (hrepeat (.refl s))
    (.ite (hrepeat (.refl s)) (.ite (hrepeat (.refl s)) (.ite ?_ (.ite hchar (.ite hchar (.ite hchar
    (.ite (.bind ?_) hchar))))))))))))
  · exact fun t ht => .more (grows_dropComment ht)
  · rintro ⟨m, t⟩ hm
    exact .more (.of_only (takes_escape hm).only (takes_escape hm).suffix)
  · rintro ⟨p, t⟩ hp
    exact .more (.of_only (takes_readClass hp).only (takes_readClass hp).suffix)
  · split
    · exact hchar
    · rename_i least most t hb
      refine .ite ?_ (hrepeat (.of_only (suffix_bounds? hb).1 (suffix_bounds? hb).2))
      rintro _ ⟨⟩
  · rintro ⟨number, t⟩ hn _ ⟨⟩ r hr
    obtain rfl := Option.some.inj hr
    exact grows_groupHead hn

lemma grows_item {verbose : Bool} {found : List Piece} {i : Item} (h : item verbose found s = .ok i)
    (ht : i.reader? = some t) : Grows s t ∧ t.rest.length < s.rest.length := by
  unfold item at h
  split at h
  · obtain rfl := Except.ok.inj h
    cases ht
  · rename_i c rest hrest
    have hgrows := advances_itemAt _ _ _ _ _ i h t ht
    have hsuffix : rest <:+ s.rest := hrest ▸ suffix_cons c rest
    refine ⟨.trans (.of_only rfl hsuffix) hgrows, ?_⟩
    have hlen := hgrows.suffix.length_le
    rw [hrest, length_cons]
    exact Nat.lt_succ_of_le hlen

end Growth

section Framing

def Piece.bare : Piece → Piece
  | plain p => plain p.bare
  | anchor p => anchor p.bare
  | repeated p => repeated p.bare

lemma bare_join (found : List Piece) : (join found).bare = join (found.map Piece.bare) := by
  have hfold : ∀ (ps : List Piece) (q : Pattern), ((ps.map Piece.pattern).foldl .seq q).bare =
      ((ps.map Piece.bare).map Piece.pattern).foldl .seq q.bare := by
    intro ps
    induction ps with
    | nil => exact fun q => rfl
    | cons p ps ih =>
      intro q
      rw [map_cons, foldl_cons, ih, map_cons, map_cons, foldl_cons]
      cases p <;> rfl
  rw [join, join, ← map_reverse]
  cases found.reverse with
  | nil => rfl
  | cons p ps =>
    refine (hfold ps _).trans ?_
    cases p <;> rfl

/-- Steps that go alike, the second one before a text that a parenthesis and more text follow. -/
inductive Item.Framed (u : List Char) : Item → Item → Prop
  | stop : Framed u stop stop
  | more {found found' : List Piece} {s s' : Reader} (hf : found'.map Piece.bare = found.map Piece.bare)
      (hs : s'.rest = s.rest ++ ')' :: u) : Framed u (more found s) (more found' s')
  | opened {number number' : Option Nat} {s s' : Reader} (hn : number'.isSome = number.isSome)
      (hs : s'.rest = s.rest ++ ')' :: u) : Framed u (opened number s) (opened number' s')

variable {u : List Char} {s s' t t' : Reader} {verbose : Bool} {α : Type}

def Fits (u : List Char) (x x' : Except ReadError Item) : Prop :=
  ∀ i i', x = .ok i → x' = .ok i' → Item.Framed u i i'

namespace Fits

variable {x x' y y' : Except ReadError Item}

lemma ite {c : Prop} [Decidable c] (hx : c → Fits u x x') (hy : ¬ c → Fits u y y') :
    Fits u (if c then x else y) (if c then x' else y') := by
  split
  · exact hx ‹_›
  · exact hy ‹_›

lemma stop : Fits u (.ok .stop) (.ok .stop) := by
  rintro _ _ ⟨⟩ ⟨⟩
  exact .stop

lemma more {found found' : List Piece} (hf : found'.map Piece.bare = found.map Piece.bare)
    (hs : s'.rest = s.rest ++ ')' :: u) : Fits u (.ok (.more found s)) (.ok (.more found' s')) := by
  rintro _ _ ⟨⟩ ⟨⟩
  exact .more hf hs

lemma bind {x x' : Except ReadError α} {f f' : α → Except ReadError Item}
    (h : ∀ a a', x = .ok a → x' = .ok a' → Fits u (f a) (f' a')) : Fits u (x >>= f) (x' >>= f') := by
  intro i i' hi hi'
  obtain ⟨a, ha, hi⟩ := bind_eq_ok hi
  obtain ⟨a', ha', hi'⟩ := bind_eq_ok hi'
  exact h a a' ha ha' i i' hi hi'

end Fits

section Parts

variable (hs : s'.rest = s.rest ++ ')' :: u)

include hs

lemma Takes.fits {f : Reader → Except ReadError (α × Reader)} {a a' : α} (h : Takes f s a t) (h' : f s' = .ok (a', t')) :
    a' = a ∧ t'.rest = t.rest ++ ')' :: u := by
  obtain ⟨rfl, rfl⟩ := Prod.mk.inj (Except.ok.inj (h'.symm.trans (h.framed u s' hs)))
  exact ⟨rfl, rfl⟩

omit hs in
/-- A comment ends in a text whatever follows, or runs over a parenthesis after it. -/
lemma afterComment?_append {w r : List Char} (h : afterComment? w = some r) :
    (∀ v, afterComment? (w ++ v) = some (r ++ v)) ∨ r = [] ∧ afterComment? (w ++ [')']) = some [] := by
  fun_induction afterComment? w with
  | case1 => exact .inr ⟨(Option.some.inj h).symm, by decide⟩
  | case2 => cases h
  | case3 c rest ih => simpa only [cons_append, afterComment?] using ih h
  | case4 rest =>
    obtain rfl := Option.some.inj h
    exact .inl fun v => by simp [afterComment?]
  | case5 c rest hone hmany hne ih =>
    have hslash : c ≠ '\\' := by
      rintro rfl
      cases rest with
      | nil => exact hone rfl rfl
      | cons d rest => exact hmany d rest rfl rfl
    have hnext : ∀ v, afterComment? (c :: v) = afterComment? v := by
      intro v
      rw [afterComment?, if_neg hne]
      · exact fun h => (hslash h).elim
      · exact fun _ _ h => (hslash h).elim
    simpa only [cons_append, hnext] using ih h

lemma fits_dropComment (hc : afterComment? (s.rest ++ [')']) ≠ some []) (h : dropComment s = .ok t)
    (h' : dropComment s' = .ok t') : t'.rest = t.rest ++ ')' :: u := by
  unfold dropComment at h h'
  split at h
  · rename_i rest hrest
    obtain rfl := Except.ok.inj h
    rcases afterComment?_append hrest with hends | ⟨-, hruns⟩
    · rw [hs, hends] at h'
      exact Except.ok.inj h' ▸ rfl
    · exact (hc hruns).elim
  · cases h

omit hs in
lemma repeatLast_plain (least : Nat) (most : Option Nat) (sign : Nat) (p : Pattern) (before : List Piece) (s : Reader) :
    repeatLast least most sign (.plain p :: before) s =
      .ok (.repeated (.times least most (greedOf s).1 p) :: before, (greedOf s).2) :=
  rfl

lemma fits_repeatLast {least sign sign' : Nat} {most : Option Nat} {found found' : List Piece} {x x' : List Piece × Reader}
    (hf : found'.map Piece.bare = found.map Piece.bare) (h : repeatLast least most sign found s = .ok x)
    (h' : repeatLast least most sign' found' s' = .ok x') :
    x'.1.map Piece.bare = x.1.map Piece.bare ∧ x'.2.rest = x.2.rest ++ ')' :: u := by
  rcases found with _ | ⟨_ | _ | _, before⟩
  · cases h
  · rename_i p
    obtain ⟨q, before', rfl, hq, hbefore⟩ := map_eq_cons_iff.mp hf
    cases q with
    | plain q =>
      obtain rfl := Except.ok.inj ((repeatLast_plain _ _ _ _ _ _).symm.trans h)
      obtain rfl := Except.ok.inj ((repeatLast_plain _ _ _ _ _ _).symm.trans h')
      have hbare : q.bare = p.bare := Piece.plain.inj hq
      simp only [greedOf_framed hs, map_cons, hbefore, Piece.bare, bare, hbare, and_self]
    | anchor q => cases hq
    | repeated q => cases hq
  · cases h
  · cases h

omit hs in
lemma rest_openGroup {name : Option String} {place n : Nat} (h : openGroup name place s = .ok (n, t)) : t.rest = s.rest := by
  unfold openGroup at h
  dsimp only at h
  split at h
  · obtain ⟨-, rfl⟩ := Prod.mk.inj (Except.ok.inj h)
    rfl
  · split at h
    · cases h
    · obtain ⟨-, rfl⟩ := Prod.mk.inj (Except.ok.inj h)
      rfl

lemma fits_groupHead {number number' : Option Nat} (h : groupHead s = .ok (number, t))
    (h' : groupHead s' = .ok (number', t')) : number'.isSome = number.isSome ∧ t'.rest = t.rest ++ ')' :: u := by
  unfold groupHead at h
  split at h
  · rename_i rest hrest
    obtain ⟨rfl, rfl⟩ := Prod.mk.inj (Except.ok.inj h)
    simp only [groupHead, hs, hrest, cons_append] at h'
    obtain ⟨rfl, rfl⟩ := Prod.mk.inj (Except.ok.inj h')
    exact ⟨rfl, rfl⟩
  · rename_i rest hrest
    simp only [groupHead, hs, hrest, cons_append] at h'
    obtain ⟨⟨name, s₁⟩, hname, h⟩ := bind_eq_ok h
    obtain ⟨⟨n, s₂⟩, hopen, h⟩ := bind_eq_ok h
    obtain ⟨rfl, rfl⟩ := Prod.mk.inj (Except.ok.inj h)
    obtain ⟨⟨name', s₁'⟩, hname', h'⟩ := bind_eq_ok h'
    obtain ⟨⟨n', s₂'⟩, hopen', h'⟩ := bind_eq_ok h'
    obtain ⟨rfl, rfl⟩ := Prod.mk.inj (Except.ok.inj h')
    refine ⟨rfl, ?_⟩
    rw [rest_openGroup hopen, rest_openGroup hopen']
    exact ((takes_groupName hname).fits rfl hname').2
  · cases h
  · cases h
  · cases h
  · cases h
  · rename_i hone _ _ hmany
    obtain ⟨⟨n, s₂⟩, hopen, h⟩ := bind_eq_ok h
    obtain ⟨rfl, rfl⟩ := Prod.mk.inj (Except.ok.inj h)
    -- Neither text begins with a question mark.
    have hhead : ∀ rest, s'.rest ≠ '?' :: rest := by
      intro rest hrest
      rw [hs] at hrest
      rcases hw : s.rest with _ | ⟨c, _ | ⟨d, w⟩⟩
      · rw [hw] at hrest
        simp at hrest
      · rw [hw] at hrest
        obtain ⟨rfl, -⟩ := List.cons.inj hrest
        exact hone hw
      · rw [hw] at hrest
        obtain ⟨rfl, -⟩ := List.cons.inj hrest
        exact hmany d w hw
    unfold groupHead at h'
    split at h'
    · exact (hhead _ ‹_›).elim
    · exact (hhead _ ‹_›).elim
    · exact (hhead _ ‹_›).elim
    · exact (hhead _ ‹_›).elim
    · exact (hhead _ ‹_›).elim
    · exact (hhead _ ‹_›).elim
    · obtain ⟨⟨n', s₂'⟩, hopen', h'⟩ := bind_eq_ok h'
      obtain ⟨rfl, rfl⟩ := Prod.mk.inj (Except.ok.inj h')
      exact ⟨rfl, by rw [rest_openGroup hopen, rest_openGroup hopen', hs]⟩

lemma fits_itemAt {c : Char} (here here' : Nat) {found found' : List Piece}
    (hf : found'.map Piece.bare = found.map Piece.bare)
    (hcomment : verbose = true → c = '#' → afterComment? (s.rest ++ [')']) ≠ some []) :
    Fits u (itemAt verbose c here found s) (itemAt verbose c here' found' s') := by
  have hrepeat : ∀ {least : Nat} {most : Option Nat} {t t' : Reader}, t'.rest = t.rest ++ ')' :: u → Fits u
      (repeatLast least most here found t >>= fun x => .ok (.more x.1 x.2))
      (repeatLast least most here' found' t' >>= fun x => .ok (.more x.1 x.2)) := by
    intro least most t t' ht
    refine .bind fun x x' hx hx' => ?_
    obtain ⟨hmore, hrest⟩ := fits_repeatLast ht hf hx hx'
    exact .more hmore hrest
  have hadd : ∀ {p p' : Piece} {t t' : Reader}, p'.bare = p.bare → t'.rest = t.rest ++ ')' :: u →
      Fits u (.ok (.more (p :: found) t)) (.ok (.more (p' :: found') t')) := by
    intro p p' t t' hp ht
    exact .more (by rw [map_cons, map_cons, hp, hf]) ht
  rw [itemAt, itemAt]
  refine .ite (fun _ => .stop) fun _ => .ite (fun _ => .more hf hs) fun _ => .ite (fun hc => .bind ?_) fun _ =>
    .ite (fun _ => .bind ?_) fun _ => .ite (fun _ => .bind ?_) fun _ => .ite (fun _ => hrepeat hs) fun _ =>
    .ite (fun _ => hrepeat hs) fun _ => .ite (fun _ => hrepeat hs) fun _ => .ite (fun _ => ?_) fun _ =>
    .ite (fun _ => hadd rfl hs) fun _ => .ite (fun _ => hadd rfl hs) fun _ => .ite (fun _ => hadd rfl hs) fun _ =>
    .ite (fun _ => .bind ?_) fun _ => hadd rfl hs
  · simp only [Bool.and_eq_true, decide_eq_true_eq] at hc
    exact fun t t' ht ht' => .more hf (fits_dropComment hs (hcomment hc.1 hc.2) ht ht')
  · rintro ⟨m, t⟩ ⟨m', t'⟩ hm hm'
    obtain ⟨rfl, ht⟩ := (takes_escape hm).fits hs hm'
    exact hadd rfl ht
  · rintro ⟨p, t⟩ ⟨p', t'⟩ hp hp'
    obtain ⟨rfl, ht⟩ := (takes_readClass hp).fits hs hp'
    exact hadd rfl ht
  · rw [bounds?_framed hs]
    cases hb : bounds? s with
    | none => exact hadd rfl hs
    | some b =>
      refine .ite (fun _ => ?_) fun _ => hrepeat rfl
      rintro _ _ ⟨⟩
  · rintro ⟨number, t⟩ ⟨number', t'⟩ hn hn' _ _ ⟨⟩ ⟨⟩
    obtain ⟨hnumber, ht⟩ := fits_groupHead hs hn hn'
    exact .opened hnumber ht

end Parts

/-- A comment that a parenthesis after the text does not end. -/
def Comment (verbose : Bool) (s : Reader) : Prop :=
  verbose = true ∧ ∃ rest, s.rest = '#' :: rest ∧ afterComment? (rest ++ [')']) = some []

lemma fits_item {found found' : List Piece} (hf : found'.map Piece.bare = found.map Piece.bare)
    (hs : s'.rest = s.rest ++ ')' :: u) (hcomment : ¬ Comment verbose s) :
    Fits u (item verbose found s) (item verbose found' s') := by
  cases hrest : s.rest with
  | nil =>
    have hs' : s'.rest = ')' :: u := by rw [hs, hrest, nil_append]
    simp only [item, hrest, hs']
    exact .stop
  | cons c rest =>
    have hs' : s'.rest = c :: (rest ++ ')' :: u) := by rw [hs, hrest, cons_append]
    simp only [item, hrest, hs']
    exact fits_itemAt rfl _ _ hf fun hv hc hn => hcomment ⟨hv, rest, hc ▸ hrest, hn⟩

end Framing

end LispKit.Pattern.Reader
