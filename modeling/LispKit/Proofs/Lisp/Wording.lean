import LispKit.Proofs.Lisp.Modes
import LispKit.Proofs.Lisp.Overlong

/-! Reading words alone: the reading of a source goes along with a parser that is given its words and nothing else. -/

namespace LispKit.Lisp

open Lexeme Reading List

structure Wording where
  words : List (List Char)
  ended : Bool := false
  valid : Bool := true
  cutShort : Bool := false

namespace Wording

def nextToken (s : Wording) : Except Empty (Option LispSymbol) × Wording :=
  match s.words with
  | [] => (.ok none, { s with ended := true })
  | w :: ws => (.ok (some (ofToken (Lexeme.token w 0 {}).1)), { s with words := ws })

def apply (r : Parser.Reduction Symbol Phrase) (s : Wording) : Parser.RuleReply Symbol Phrase Empty × Wording :=
  let parts := r.arguments.map fun a => a.value.getD .nothing
  (.done { r.symbol with value := some (phrase r.production.name parts {}).1 } false, s)

def onError (offending : Option LispSymbol) (s : Wording) :
    Except Empty (Parser.ErrorReply Symbol Phrase) × Wording :=
  (.ok {}, { s with valid := false, cutShort := s.cutShort || offending.isNone })

def host : Parser.Host Symbol Phrase Wording Empty where
  nextToken := nextToken
  place _ := (1, 0)
  apply := apply
  onError := some onError
  display p := p.write.map (p.typeName, ·)
  nothing := .nothing
  errorValue := .text "error"
  ofToken s := s.value.getD .nothing

def read (steps : Nat) (ws : List (List Char)) : Parser.Progress Symbol Phrase Wording Empty :=
  Parser.parse host tables {} steps true { words := ws }

def Awaits (s : Wording) : Option (List (List Char)) → Prop
  | some ws => s.words = ws
  | none => s.ended = true

def quiet : Parser.Quiet host (List Char) where
  type := symbol
  Feed s f := s.Awaits f ∧ (s.cutShort = true → s.valid = false)
  clean := valid
  Reads := Word
  Acts := Acts
  plain := symbol_plain
  next {s a w} h := by
    refine ⟨ofToken (Lexeme.token a 0 {}).1, _, { s with words := w }, ?_, ?_, rfl, ⟨0, {}, rfl⟩, ⟨rfl, h.2⟩, rfl⟩
    · change nextToken s = _
      rw [nextToken, show s.words = a :: w from h.1]
    · rw [symbol, ← Lexeme.type_token a 0 {}]
      rfl
  done {s} h := by
    refine ⟨{ s with ended := true }, ?_, ⟨rfl, h.2⟩, rfl⟩
    change nextToken s = _
    rw [nextToken, show s.words = [] from h.1]
  rule r h := ⟨_, _, rfl, ⟨{}, rfl⟩, h, rfl⟩
  complain := by
    refine ⟨onError, rfl, fun {offending s f} h => ⟨_, rfl, ⟨?_, fun _ => rfl⟩, rfl⟩⟩
    cases f with
    | some ws => exact h.1
    | none => exact h.1

section Read

variable {steps : Nat} {ws : List (List Char)}

lemma feed_words (ws : List (List Char)) : quiet.Feed { words := ws } (some ws) :=
  ⟨rfl, nofun⟩

lemma read_finishes (h : 14 * ws.length + 4 ≤ steps) : ∃ v c, read steps ws = .finished v c ∧ c.host.ended = true ∧
    (c.host.cutShort = true → c.host.valid = false) := by
  have hsteps : weights.cost * ws.length + weights.lift + 1 ≤ steps := h
  obtain ⟨v, c, hread, ⟨hended, hcut⟩, -⟩ : ∃ v c, read steps ws = .finished v c ∧ quiet.Feed c.host none ∧ _ :=
    Parser.parse_finishes tables_steady weights (feed_words ws) hsteps
  exact ⟨v, c, hread, hended, hcut⟩

lemma cutShort_program (p : Program) (h : 14 * p.lexemes.length + 4 ≤ steps) :
    (read steps p.lexemes).config.host.cutShort = false := by
  have hsteps : weights.cost * p.lexemes.length + weights.lift + 1 ≤ steps := h
  obtain ⟨v, c, hread, -, hcut⟩ := read_finishes h
  obtain ⟨v', c', hread', -, hvalid⟩ : ∃ v c', read steps p.lexemes = .finished (some v) c' ∧ _ ∧
      c'.host.valid = true :=
    Parser.parse_tree tables_steady tables_decided weights (feed_words p.lexemes) hsteps p.sound_derivation.fits
      p.sound_derivation.root p.word_derivation
  obtain ⟨-, rfl⟩ := Parser.Progress.finished.inj (hread.symm.trans hread')
  rw [hread, ← Bool.not_eq_true]
  intro hshort
  have hfalse := hcut hshort
  rw [hvalid] at hfalse
  cases hfalse

lemma isComplete_start {i : Item Symbol} (hi : i ∈ automaton.itemsOf 0) : i.isComplete = false := by
  have hall : ∀ i ∈ Collection.closure outline [Item.start whole], i.isComplete = false := by decide +kernel
  obtain ⟨st, hst, hkernel⟩ := automaton_explored.first
  rw [Collection.itemsOf_eq hst, (automaton_explored.formed st (mem_of_getElem? hst)).1, hkernel,
    closure_grammar] at hi
  exact hall i hi

lemma isComplete_dotted (p : Production Symbol) : (p.dotted p.symbols.length).isComplete = true :=
  decide_eq_true (Nat.le_refl _)

lemma default?_start : tables.default? 0 = none := by
  cases hd : tables.default? 0 with
  | none => rfl
  | some n =>
    obtain ⟨⟨s, hs⟩, -⟩ := tables_serve.of_default hd
    obtain ⟨p, -, -, hi⟩ := tables_serve.of_reduce hs
    exact absurd (isComplete_dotted p) (by rw [isComplete_start hi]; exact Bool.false_ne_true)

lemma action?_start_end : tables.action? 0 .endOfInput = none := by
  cases ha : tables.action? 0 .endOfInput with
  | none => rfl
  | some a =>
    exfalso
    cases a with
    | shift r =>
      have hgoto := (tables_serve.of_shift ha).1
      rw [goto?_eq_none (by decide)] at hgoto
      cases hgoto
    | reduce n =>
      obtain ⟨p, -, -, hi⟩ := tables_serve.of_reduce ha
      exact absurd (isComplete_dotted p) (by rw [isComplete_start hi]; exact Bool.false_ne_true)
    | accept => exact absurd (isComplete_start (tables_serve.of_accept ha).2) (by decide)

-- The tables are a variable here, so that nothing can evaluate them.
lemma parse_nil (k : Nat) {t : Parser.Tables Symbol} (hd : t.default? 0 = none) (ha : t.action? 0 .endOfInput = none) :
    ∃ c, Parser.parse host t {} (k + 1) true { words := [] } = .finished none c ∧ c.host.cutShort = true := by
  have hact : ∀ c : Parser.Config Symbol Phrase Wording, c.state = 0 →
      Parser.act host t {} .atEnd c = Parser.recover host {} .atEnd c := by
    intro c hc
    rw [Parser.act, hc, show t.action? 0 (Parser.StackSymbol.atEnd : LispSymbol).type = none from ha]
  obtain ⟨c, hstep, hcut⟩ : ∃ c, Parser.step host t {} (.start { words := [] } true) = .finished none c ∧
      c.host.cutShort = true := by
    rw [Parser.step_eq]
    simp only [Parser.Config.start, hd]
    change ∃ c, Parser.act host t {} .atEnd _ = .finished none c ∧ c.host.cutShort = true
    rw [hact _ rfl]
    exact ⟨_, rfl, rfl⟩
  refine ⟨c, ?_, hcut⟩
  change Parser.run host t {} (k + 1) (.start { words := [] } true) = _
  rw [Parser.run, hstep]

lemma cutShort_nil (h : 0 < steps) : (read steps []).config.host.cutShort = true := by
  obtain ⟨k, rfl⟩ := Nat.exists_eq_add_one_of_ne_zero h.ne'
  obtain ⟨c, hparse, hcut⟩ := parse_nil k default?_start action?_start_end
  rw [read, hparse]
  exact hcut

end Read

end Wording

section Beside

variable {source w : List Char} {loud : Bool} {limits : Limits} {s s' : Wording} {r : Reading} {d : Desk}

structure Beside (source : List Char) (loud : Bool) (s : Wording) (r : Reading) : Prop where
  place : ∃ (p : Nat) (rest : List Char), r.scanner = placed scanner source p ∧ source.drop p = rest ∧
    s.words = readable (lexemes (pieces rest)) ∧
    overlong? (lexemes (pieces rest)) = overlong? (lexemes (pieces source))
  ended : s.ended = true → overlong? (lexemes (pieces source)) = none
  valid : r.desk.valid = s.valid
  verbose : r.desk.verbose = loud
  silent : loud = true → s.cutShort = false

structure SamePhrase (p p' : Phrase) : Prop where
  bare : p'.bare = p.bare
  writable : p'.Writable

lemma samePhrase_word (hw : isShort w = true) {p p' : Phrase} (h : Word w p) (h' : Word w p') : SamePhrase p p' := by
  obtain ⟨q, hq⟩ := exists_yields (.leaf w)
  exact ⟨by rw [hq _ (.leaf h'), hq _ (.leaf h)], writable_word (isShort_iff.mp hw) h'⟩

lemma kin_token (hw : isShort w = true) (q : Nat) (d : Desk) :
    Parser.Kin SamePhrase false (ofToken (Lexeme.token w 0 {}).1) (ofToken (Lexeme.token w q d).1) := by
  refine ⟨?_, ⟨_, _, rfl, rfl, samePhrase_word hw ⟨0, {}, rfl⟩ ⟨q, d, rfl⟩⟩, fun hno => nomatch hno⟩
  rw [ofToken, ofToken, Lexeme.type_token, Lexeme.type_token]

lemma samePhrase_nothing : SamePhrase .nothing .nothing :=
  ⟨rfl, _, rfl⟩

lemma phrase_flags (name : Symbol) (parts : List Phrase) (d : Desk) : SameFlags d (phrase name parts d).2 := by
  unfold phrase
  cases kind? name parts with
  | some k => exact ⟨rfl, rfl⟩
  | none =>
    dsimp only
    split
    · exact .print d _
    · exact ⟨rfl, rfl⟩

lemma samePhrase_phrase {args args' : List LispSymbol} (h : List.Forall₂ (Parser.Kin SamePhrase false) args args')
    (name : Symbol) (d : Desk) : SamePhrase (phrase name (args.map fun a => a.value.getD .nothing) {}).1
      (phrase name (args'.map fun a => a.value.getD .nothing) d).1 := by
  have hparts : List.Forall₂ SamePhrase (args.map fun a => a.value.getD .nothing)
      (args'.map fun a => a.value.getD .nothing) := by
    rw [forall₂_map_left_iff, forall₂_map_right_iff]
    exact h.imp fun _ _ hx => hx.getD _ _
  generalize (args.map fun a => a.value.getD .nothing) = parts at hparts
  generalize (args'.map fun a => a.value.getD .nothing) = parts' at hparts
  obtain ⟨hbare, hwritable⟩ : parts'.map Phrase.bare = parts.map Phrase.bare ∧ ∀ p ∈ parts', p.Writable := by
    induction hparts with
    | nil => exact ⟨rfl, forall_mem_nil _⟩
    | cons hp _ ih =>
      obtain ⟨hbare, hwritable⟩ := ih
      exact ⟨by rw [map_cons, map_cons, hp.bare, hbare], forall_mem_cons.mpr ⟨hp.writable, hwritable⟩⟩
  exact ⟨by rw [phrase_bare, phrase_bare, hbare], writable_phrase hwritable name d⟩

lemma Beside.desk (h : Beside source loud s r) (hs : s'.words = s.words) (hended : s'.ended = s.ended)
    (hvalid : d.valid = s'.valid) (hverbose : d.verbose = r.desk.verbose)
    (hsilent : loud = true → s'.cutShort = false) : Beside source loud s' { r with desk := d } := by
  obtain ⟨p, rest, hscanner, hrest, hwords, hlong⟩ := h.place
  exact ⟨⟨p, rest, hscanner, hrest, hs.trans hwords, hlong⟩, fun he => h.ended (hended ▸ he), hvalid,
    hverbose.trans h.verbose, hsilent⟩

lemma Beside.next (hn : source.length < limits.steps) (hd : 0 < limits.depth) (h : Beside source loud s r) :
    (∃ o s₁ o' r₁, Wording.nextToken s = (.ok o, s₁) ∧ nextToken limits r = (.ok o', r₁) ∧
      Option.Rel (Parser.Ahead SamePhrase false) o o' ∧ Beside source loud s₁ r₁) ∨
    ∃ e r₁, nextToken limits r = (.error e, r₁) ∧
      ∃ w, overlong? (lexemes (pieces source)) = some w ∧ e = .fault (.longNumeral (digitCount w)) := by
  obtain ⟨⟨p, rest, hscanner, hrest, hwords, hlong⟩, hended, hvalid, hverbose, hsilent⟩ := h
  obtain ⟨sc, d⟩ := r
  obtain rfl : sc = placed scanner source p := hscanner
  have hlen : rest.length < limits.steps := by
    rw [← hrest, length_drop]
    omega
  unfold Wording.nextToken Reading.nextToken
  rw [hwords]
  cases hws : lexemes (pieces rest) with
  | nil =>
    obtain ⟨p', d', hflags, hdrop, htoken⟩ := token_nil (d := d) lexical_scanner hrest hlen hd hws
    have hnone : overlong? (lexemes (pieces source)) = none := by
      rw [← hlong, hws]
      rfl
    have hnil : lexemes (pieces []) = [] := by
      rw [pieces]
      rfl
    rw [htoken]
    refine .inl ⟨none, _, none, _, rfl, rfl, .none, ⟨p', [], rfl, hdrop, ?_, ?_⟩, fun _ => hnone,
      hflags.valid.trans hvalid, hflags.verbose.trans hverbose, hsilent⟩
    · rw [hnil]
    · rw [hnil, hnone, overlong?, find?_nil]
  | cons w ws =>
    cases hw : isShort w with
    | false =>
      obtain ⟨p', d', -, htoken⟩ := token_overlong (d := d) lexical_scanner hrest hlen hd hws hw
      rw [htoken]
      refine .inr ⟨_, _, rfl, w, ?_, rfl⟩
      rw [← hlong, hws, overlong?, find?_cons, hw]
      rfl
    | true =>
      obtain ⟨q, p', d₀, d', rest', hflags, hdrop, hws', -, htoken⟩ :=
        token_cons (d := d) lexical_scanner hrest hlen hd hws hw
      have hreadable : readable (w :: ws) = w :: readable ws := by rw [readable, takeWhile_cons, hw]; rfl
      rw [htoken, hreadable]
      refine .inl ⟨_, _, _, _, rfl, rfl, .some (.token (kin_token hw q d₀)), ⟨p', rest', rfl, hdrop, ?_, ?_⟩, hended,
        hflags.valid.trans hvalid, hflags.verbose.trans hverbose, hsilent⟩
      · rw [hws']
      · rw [← hlong, hws', hws, overlong?, overlong?, find?_cons, hw]
        rfl

lemma Beside.complain_token (h : Beside source loud s r) {x x' : LispSymbol}
    (hx : Parser.Kin SamePhrase false x x') : ∃ s₁ r₁, Wording.onError (some x) s = (.ok {}, s₁) ∧ onError (some x') r = (.ok {}, r₁) ∧
      Beside source loud s₁ r₁ := by
  obtain ⟨v, v', -, hv', hlike⟩ := hx.value
  obtain ⟨text, htext⟩ := hlike.writable
  have hsilent : loud = true → (s.cutShort || (some x).isNone) = false := by
    intro hverbose
    rw [h.silent hverbose]
    rfl
  cases hverbose : r.desk.verbose with
  | false => exact ⟨_, _, rfl, onError_ok _ hverbose, h.desk rfl rfl rfl rfl hsilent⟩
  | true =>
    have hreact : onError (some x') r =
        (.ok {}, { r with desk := Desk.print { r.desk with valid := false } ("Syntax error at " ++ text) }) := by
      have hwrite : x'.getValue.bind Phrase.write = .ok text := by
        rw [Parser.StackSymbol.getValue, hv']
        exact htext
      simp only [onError, hverbose, if_true, hwrite]
    exact ⟨_, _, rfl, hreact, h.desk rfl rfl rfl rfl hsilent⟩

def unnamed : Scanner.ScanError :=
  .fault (.missingAttribute "NoneType" "value")

lemma Beside.complain_end (h : Beside source loud s r) : ∃ s₁, Wording.onError none s = (.ok {}, s₁) ∧
    ((∃ r₁, onError none r = (.ok {}, r₁) ∧ Beside source loud s₁ r₁) ∨
      s₁.cutShort = true ∧ ∃ e r₁, onError none r = (.error e, r₁) ∧ loud = true ∧ e = unnamed) := by
  refine ⟨_, rfl, ?_⟩
  cases hverbose : r.desk.verbose with
  | false =>
    refine .inl ⟨_, onError_ok none hverbose, h.desk rfl rfl rfl rfl fun hloud => ?_⟩
    rw [h.verbose, hloud] at hverbose
    cases hverbose
  | true =>
    refine .inr ⟨Bool.or_true _, unnamed, { r with desk := { r.desk with valid := false } }, ?_, ?_, rfl⟩
    · simp only [onError, hverbose, if_true, unnamed]
    · rw [← h.verbose, hverbose]

def shadow (source : List Char) (loud : Bool) (limits : Limits) (hn : source.length < limits.steps)
    (hd : 0 < limits.depth) : Parser.Shadow Wording.host (host limits) {} where
  Near := Beside source loud
  Like := SamePhrase
  Open _ := True
  Fatal s := s.cutShort = true
  Cut e := ∃ w, overlong? (lexemes (pieces source)) = some w ∧ e = .fault (.longNumeral (digitCount w))
  Stop e := loud = true ∧ e = unnamed
  nothing := samePhrase_nothing
  display hno := nomatch hno
  ofToken hx := hx.getD _ _
  next _ h := h.next hn hd
  rule {s r} x h := by
    refine ⟨_, _, rfl, fun x' hproduction hargs => ⟨_, _, rfl, ?_, ?_⟩⟩
    · rw [hproduction]
      exact samePhrase_phrase hargs _ _
    · have hflags := phrase_flags x'.production.name (x'.arguments.map fun a => a.value.getD .nothing) r.desk
      exact h.desk rfl rfl (hflags.valid.trans h.valid) hflags.verbose h.silent
  complain := ⟨Wording.onError, onError, rfl, rfl, fun hx h => h.complain_token hx, fun h => h.complain_end⟩

-- Stated for every scanner, so that nothing can evaluate the one of programs.
lemma placed_input (sc : LispScanner) (source : List Char) (p : Nat) :
    (placed sc source p).input source = placed sc source 0 := rfl

theorem read_pursues {source : String} {limits : Limits} (hn : source.toList.length < limits.steps)
    (hd : 0 < limits.depth) (hvalid : d.valid = true) (p : Nat) :
    Parser.Pursues (shadow source.toList d.verbose limits hn hd)
      (Wording.read limits.steps (readable (lexemes (pieces source.toList))))
      (read limits tables {} (placed scanner source.toList p) d source) := by
  have hstart : (shadow source.toList d.verbose limits hn hd).Near
      { words := readable (lexemes (pieces source.toList)) } ⟨(placed scanner source.toList p).input source.toList, d⟩ :=
    ⟨⟨0, source.toList, placed_input _ _ _, drop_zero, rfl, rfl⟩, nofun, hvalid, rfl, fun _ => rfl⟩
  rw [Wording.read, read]
  exact Parser.parse_pursues _ (I := fun _ => True) tables_steady.action?_end (fun _ _ _ _ => trivial) (fun _ _ _ _ => trivial)
    hstart limits.steps trivial

end Beside

end LispKit.Lisp
