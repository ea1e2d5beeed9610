import LispKit.Proofs.Lisp.Reading

/-! Scanning sources with numerals that are too long: tokens come up to the first one, which ends the scan. -/

namespace LispKit.Lisp

open Scanner Lexeme Lexicon List

def Lexeme.isShort (w : List Char) : Bool :=
  !isNumeral w || digitCount w ≤ Text.digitLimit

lemma Lexeme.isShort_iff {w : List Char} :
    isShort w = true ↔ (isNumeral w = true → digitCount w ≤ Text.digitLimit) := by
  rw [isShort]
  cases isNumeral w <;> simp

lemma Lexeme.isShort_eq_false {w : List Char} :
    isShort w = false ↔ isNumeral w = true ∧ Text.digitLimit < digitCount w := by
  rw [← Bool.not_eq_true, isShort_iff, Classical.not_imp, Nat.not_le]

def readable (ws : List (List Char)) : List (List Char) :=
  ws.takeWhile isShort

def overlong? (ws : List (List Char)) : Option (List Char) :=
  ws.find? fun w => !isShort w

variable {ps : List Piece}

lemma overlong?_eq_none : overlong? (lexemes ps) = none ↔ ShortNumerals ps := by
  simp only [overlong?, find?_eq_none, Bool.not_eq_true, Bool.not_eq_false', isShort_iff, ShortNumerals]

lemma readable_eq (h : ShortNumerals ps) : readable (lexemes ps) = lexemes ps :=
  takeWhile_eq_self_iff.mpr fun w hw => isShort_iff.mpr (h w hw)

structure SameFlags (d d' : Desk) : Prop where
  valid : d'.valid = d.valid
  verbose : d'.verbose = d.verbose

namespace SameFlags

variable {d d' d'' : Desk}

lemma trans (h : SameFlags d d') (h' : SameFlags d' d'') : SameFlags d d'' :=
  ⟨h'.valid.trans h.valid, h'.verbose.trans h.verbose⟩

lemma print (d : Desk) (line : String) : SameFlags d (d.print line) :=
  ⟨rfl, rfl⟩

end SameFlags

lemma Skips.flags {d d' : Desk} {ps' : List Piece} (h : Skips d ps d' ps') : SameFlags d d' :=
  ⟨h.valid, h.verbose⟩

section Rounds

variable {next : LispScanner → Desk → Scanner.Outcome Phrase Desk} {source rest s w : List Char} {c : Char}
  {p q n : Nat} {d : Desk} {sc : LispScanner}

lemma matched_overlong (hw : isShort w = false) (finish : Int) (ignored : String) :
    matched maker next w p finish (.ok (target w)) ignored sc d =
      .done ⟨.error (.fault (.longNumeral (digitCount w))), { sc with position := finish }, d⟩ := by
  obtain ⟨hn, hlong⟩ := isShort_eq_false.mp hw
  simp only [matched, target, if_pos hn, maker, Handler.run, handler, Handler.always, Script.run, performAll, Effect.perform,
    number, lexeme, readInteger_eq hn, if_pos hlong, afterHandler]

lemma rounds_overlong (h : Lexical sc) (hp : source.drop p = s) (hn : s.length < n)
    (hs : (lexemes (pieces s)).head? = some w) (hw : isShort w = false) : ∃ (q' : Nat) (d' : Desk), SameFlags d d' ∧
      rounds maker next ⟨source, source.length⟩ n p " \t\n\r" (placed sc source q) d =
        ⟨.error (.fault (.longNumeral (digitCount w))), placed sc source q', d'⟩ := by
  induction s using pieces.induct generalizing p q d n with
  | case1 =>
    rw [pieces] at hs
    cases hs
  | case2 c rest hb ih =>
    obtain ⟨n, rfl, hn, hlt, hp'⟩ := exists_step hp hn
    rw [pieces, if_pos hb] at hs
    rw [rounds, if_pos (by simpa using hlt), round_blank hp hb]
    exact ih hp' hn hs
  | case3 c rest hb v hv ih =>
    obtain ⟨n, rfl, -, hlt, -⟩ := exists_step hp hn
    rw [pieces, if_neg hb, hv] at hs
    obtain rfl := Option.some.inj hs
    rw [rounds, if_pos (by simpa using hlt), round_matched h hp (Bool.eq_false_iff.mpr hb) hv, matched_overlong hw]
    exact ⟨p + v.length, d, ⟨rfl, rfl⟩, rfl⟩
  | case4 c rest hb hv ih =>
    obtain ⟨n, rfl, hn, hlt, hp'⟩ := exists_step hp hn
    rw [pieces, if_neg hb, hv] at hs
    rw [rounds, if_pos (by simpa using hlt), round_illegal h hp (Bool.eq_false_iff.mpr hb) hv]
    obtain ⟨q', d', hflags, heq⟩ := ih (q := p + 1) (d := d.report c) hp' hn hs
    exact ⟨q', d', (SameFlags.print d _).trans hflags, heq⟩

end Rounds

section Token

variable {source s w : List Char} {ws : List (List Char)} {p : Nat} {d : Desk} {sc : LispScanner} {limits : Limits}

lemma drop_of_nextOf_none {d' : Desk} {p' : Nat} {ps : List Piece} (hp : source.drop p = s)
    (h : nextOf p d (pieces s) = (none, d', p', ps)) : source.drop p' = [] := by
  induction s using pieces.induct generalizing p d with
  | case1 =>
    rw [pieces, nextOf] at h
    obtain ⟨-, rfl, -⟩ : _ ∧ p + 1 = p' ∧ _ := by simpa using h
    rw [drop_eq_nil_iff] at hp ⊢
    omega
  | case2 c rest hb ih =>
    rw [pieces, if_pos hb, nextOf] at h
    exact ih (lt_length_of_drop hp).2 h
  | case3 c rest hb v hv ih =>
    rw [pieces, if_neg hb, hv, nextOf] at h
    cases h
  | case4 c rest hb hv ih =>
    rw [pieces, if_neg hb, hv, nextOf] at h
    exact ih (lt_length_of_drop hp).2 h

variable (h : Lexical sc) (hp : source.drop p = s) (hn : s.length < limits.steps) (hd : 0 < limits.depth)

include h hp hn hd

lemma token_nil (hws : lexemes (pieces s) = []) : ∃ (p' : Nat) (d' : Desk), SameFlags d d' ∧ source.drop p' = [] ∧
    Scanner.token maker limits (placed sc source p) d = ⟨.ok none, placed sc source p', d'⟩ := by
  obtain ⟨d', p', hnext, hskips⟩ := nextOf_nil hws p d
  refine ⟨p', d', hskips.flags, drop_of_nextOf_none hp hnext, ?_⟩
  rw [token_placed h hp hn hd (by simp [hws]), hnext]

lemma token_cons (hws : lexemes (pieces s) = w :: ws) (hw : isShort w = true) :
    ∃ (q p' : Nat) (d₀ d' : Desk) (s' : List Char), SameFlags d d' ∧ source.drop p' = s' ∧ lexemes (pieces s') = ws ∧
      s'.length < s.length ∧
      Scanner.token maker limits (placed sc source p) d = ⟨.ok (some (Lexeme.token w q d₀).1), placed sc source p', d'⟩ := by
  obtain ⟨q, d₀, d', p', ps', hnext, hrest, hskips⟩ := nextOf_cons hws p d
  obtain ⟨s', hp', rfl, hlt⟩ := nextOf_some hp hnext
  refine ⟨q, p', d₀, d', s', hskips.flags, hp', hrest, hlt, ?_⟩
  have hhead : ∀ v ∈ (lexemes (pieces s)).head?, isNumeral v = true → digitCount v ≤ Text.digitLimit := by
    rw [hws]
    rintro _ ⟨⟩
    exact isShort_iff.mp hw
  rw [token_placed h hp hn hd hhead, hnext]

lemma token_overlong (hws : lexemes (pieces s) = w :: ws) (hw : isShort w = false) :
    ∃ (p' : Nat) (d' : Desk), SameFlags d d' ∧ Scanner.token maker limits (placed sc source p) d =
      ⟨.error (.fault (.longNumeral (digitCount w))), placed sc source p', d'⟩ := by
  obtain ⟨depth, hdepth⟩ := Nat.exists_eq_add_one_of_ne_zero (Nat.ne_of_gt hd)
  rw [Scanner.token, hdepth, tokenWithin]
  simp only [(lexical_placed h source p).ignored]
  exact rounds_overlong h hp hn (by rw [hws]; rfl) hw

end Token

def scanned (ws : List (List Char)) : Except ScanError Unit :=
  match overlong? ws with
  | none => .ok ()
  | some w => .error (.fault (.longNumeral (digitCount w)))

lemma visit_placed {source s : List Char} {p : Nat} {d : Desk} {sc : LispScanner} {limits : Limits}
    {note : LispToken → Desk → Except Fault Desk} (h : Lexical sc) (hd : 0 < limits.depth)
    (hnote : ∀ w q d₀ d, isShort w = true → ∃ d', note (Lexeme.token w q d₀).1 d = .ok d' ∧ SameFlags d d') (n : Nat)
    (hp : source.drop p = s) (hn : s.length < n) (hl : s.length < limits.steps) :
    ∃ (q : Nat) (d' : Desk), SameFlags d d' ∧ Scanner.visit maker limits note n (placed sc source p) d =
      (scanned (lexemes (pieces s)), placed sc source q, d') := by
  induction n generalizing p d s with
  | zero => omega
  | succ n ih =>
    rw [Scanner.visit]
    cases hws : lexemes (pieces s) with
    | nil =>
      obtain ⟨p', d', hflags, -, htoken⟩ := token_nil (d := d) h hp hl hd hws
      rw [htoken]
      exact ⟨p', d', hflags, rfl⟩
    | cons w ws =>
      cases hw : isShort w with
      | false =>
        obtain ⟨p', d', hflags, htoken⟩ := token_overlong (d := d) h hp hl hd hws hw
        rw [htoken]
        refine ⟨p', d', hflags, ?_⟩
        simp only [scanned, overlong?, find?_cons, hw, Bool.not_false]
      | true =>
        obtain ⟨q, p', d₀, d', s', hflags, hp', hrest, hlt, htoken⟩ := token_cons (d := d) h hp hl hd hws hw
        obtain ⟨d₁, hnoted, hflags₁⟩ := hnote w q d₀ d' hw
        obtain ⟨q', d₂, hflags₂, hvisit⟩ := ih (d := d₁) hp' (by omega) (by omega)
        refine ⟨q', d₂, (hflags.trans hflags₁).trans hflags₂, ?_⟩
        simp only [htoken, hnoted, hvisit, hrest, scanned, overlong?, find?_cons, hw, Bool.not_true]

end LispKit.Lisp
