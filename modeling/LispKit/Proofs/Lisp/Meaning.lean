import LispKit.Proofs.Lisp.Syntax

/-! Every word that the grammar derives is the spelling of a program. -/

namespace LispKit.Lisp

open Lexeme ParseTree Lisp.Derivation List

variable {w : List Char} {ws : List (List Char)} {b : Binary}

lemma mem_fixed_of_reserved {t : String} (h : Lexicon.reserved.lookup (String.ofList w) = some t) :
    ∃ s ∈ Symbol.fixed, w = s.spelling ∧ .ofTokenType t = s := by
  have hall : ∀ r ∈ Lexicon.reserved, ∃ s ∈ Symbol.fixed, r.1.toList = s.spelling ∧ .ofTokenType r.2 = s := by
    decide +kernel
  obtain ⟨l, l', hl, -⟩ := lookup_eq_some_iff.mp h
  obtain ⟨s, hs, hw, ht⟩ := hall (String.ofList w, t) (by rw [hl]; simp)
  exact ⟨s, hs, by rwa [String.toList_ofList] at hw, ht⟩

lemma mem_fixed_of_mark : ∀ m ∈ marks, ∃ s ∈ Symbol.fixed, [m.1] = s.spelling ∧ .ofTokenType m.2 = s := by
  decide +kernel

lemma symbol_cases (w : List Char) : symbol w = .number ∧ isNumeral w = true ∨ symbol w = .bool ∧ isTruth w = true ∨
      symbol w = .identifier ∧ (∃ x : Name, x.word = w) ∨ symbol w ∈ Symbol.fixed ∧ w = (symbol w).spelling ∨
      symbol w = .other "" ∧ isLexeme w = false := by
  by_cases hn : isNumeral w = true
  · exact .inl ⟨symbol_numeral hn, hn⟩
  by_cases ht : isTruth w = true
  · refine .inr (.inl ⟨?_, ht⟩)
    rw [symbol, type, if_neg hn, if_pos ht]
    rfl
  by_cases hw : isWord w = true
  · cases hl : Lexicon.reserved.lookup (String.ofList w) with
    | none => exact .inr (.inr (.inl ⟨Name.symbol_word ⟨w, hw, hl⟩, ⟨w, hw, hl⟩, rfl⟩))
    | some t =>
      obtain ⟨s, hs, hspell, htype⟩ := mem_fixed_of_reserved hl
      have hsym : symbol w = s := by
        rw [symbol, type, if_neg hn, if_neg ht, if_pos hw, hl, Option.getD_some, htype]
      rw [hsym]
      exact .inr (.inr (.inr (.inl ⟨hs, hspell⟩)))
  · have hsym : symbol w = .ofTokenType (((marks.find? fun m => w == [m.1]).map Prod.snd).getD "") := by
      rw [symbol, type, if_neg hn, if_neg ht, if_neg hw]
    cases hm : marks.find? fun m => w == [m.1] with
    | none =>
      rw [hm] at hsym
      have hmark : isMark w = false := by
        rw [isMark, any_eq_false]
        exact find?_eq_none.mp hm
      refine .inr (.inr (.inr (.inr ⟨hsym, ?_⟩)))
      simp only [isLexeme, hn, ht, hw, hmark, Bool.or_self]
    | some m =>
      have heq : w = [m.1] := by simpa using find?_some hm
      obtain ⟨s, hs, hspell, htype⟩ := mem_fixed_of_mark m (mem_of_find?_eq_some hm)
      rw [hm, Option.map_some, Option.getD_some, htype] at hsym
      rw [hsym, heq]
      exact .inr (.inr (.inr (.inl ⟨hs, hspell⟩)))

lemma symbol_mem_terminals (h : isLexeme w = true) : symbol w ∈ Symbol.terminals := by
  rcases symbol_cases w with ⟨hs, -⟩ | ⟨hs, -⟩ | ⟨hs, -⟩ | ⟨hs, -⟩ | ⟨-, hl⟩
  · rw [hs]
    decide
  · rw [hs]
    decide
  · rw [hs]
    decide
  · exact mem_terminals_of_fixed hs
  · rw [h] at hl
    cases hl

def Meant : Symbol → List (List Char) → Prop
  | .program, ws | .statements, ws => ∃ p : Program, p.lexemes = ws
  | .statement, ws | .printStatement, ws | .definition, ws => ∃ s : Statement, s.lexemes = ws
  | .expression, ws | .numericOperation, ws | .logicalOperation, ws | .call, ws | .conditional, ws | .body, ws
  | .argument, ws | .test, ws | .consequence, ws | .alternative, ws => ∃ e : Expression, e.lexemes = ws
  | .expressions, ws => ∃ (e : Expression) (es : List Expression), e.lexemes ++ Expression.allLexemes es = ws
  | .arguments, ws => ∃ es, Expression.allLexemes es = ws
  | .identifier, ws | .reference, ws | .functionName, ws => ∃ x : Name, [x.word] = ws
  | .references, ws => ∃ xs : List Name, xs.map Name.word = ws
  | .parameters, ws => ∃ xs : List Name, enclosed (xs.map Name.word) = ws
  | .function, ws => ∃ xs e, functionLexemes xs (Expression.lexemes e) = ws
  | .empty, ws => [] = ws
  | .number, ws => ∃ n : Literal, [numeral n.value] = ws
  | .bool, ws => ∃ b : Bool, [['#', if b then 't' else 'f']] = ws
  | s, ws => [s.spelling] = ws

def Keeps (name : Symbol) : List Symbol → List (List Char) → Prop
  | [], ws => Meant name ws
  | s :: ss, ws => ∀ vs, Meant s vs → Keeps name ss (ws ++ vs)

lemma keeps_chain (hb : b.IsVariadic) (x : Expression) (vs : List (List Char)) (y : Expression) (zs : List Expression)
    (h : y.lexemes ++ Expression.allLexemes zs = vs) : ∃ e : Expression, e.lexemes =
      [Symbol.open_.spelling] ++ [b.symbol.spelling] ++ x.lexemes ++ vs ++ [Symbol.close.spelling] :=
  ⟨.chain b hb x y zs, by simp [Expression.lexemes, enclosed, ← h]⟩

lemma keeps_pair (hb : ¬ b.IsVariadic) (x y : Expression) : ∃ e : Expression, e.lexemes =
      [Symbol.open_.spelling] ++ [b.symbol.spelling] ++ x.lexemes ++ y.lexemes ++ [Symbol.close.spelling] :=
  ⟨.pair b hb x y, by simp [Expression.lexemes, enclosed]⟩

lemma keeps_productions : ∀ r ∈ productions, Keeps r.1 r.2 [] := by
  simp only [productions, forall_mem_cons, Keeps, Meant, forall_exists_index, forall_apply_eq_imp_iff, forall_eq',
    nil_append]
  refine ⟨fun p => ⟨p, rfl⟩, fun s => ⟨⟨s, []⟩, ?_⟩, fun s p => ⟨⟨s, p.first :: p.rest⟩, ?_⟩,
    fun e => ⟨.expression e, rfl⟩, fun s => ⟨s, rfl⟩, fun s => ⟨s, rfl⟩, fun e => ⟨.printNumber e, ?_⟩,
    fun e => ⟨.printBool e, ?_⟩, fun n => ⟨.number n, ?_⟩, fun b => ⟨.truth b, ?_⟩, fun x => ⟨.name x, ?_⟩,
    fun e => ⟨e, rfl⟩, fun e => ⟨e, rfl⟩, ?function, fun e => ⟨e, rfl⟩, fun e => ⟨e, rfl⟩, fun e => ⟨e, [], ?_⟩,
    ?operands,
    keeps_chain (b := .plus) (by decide), keeps_pair (b := .minus) (by decide), keeps_chain (b := .times) (by decide),
    keeps_pair (b := .divide) (by decide), keeps_pair (b := .modulo) (by decide), keeps_pair (b := .greater) (by decide),
    keeps_pair (b := .less) (by decide), keeps_chain (b := .equal) (by decide), keeps_chain (b := .and) (by decide),
    keeps_chain (b := .or) (by decide), fun e => ⟨.not e, ?_⟩, fun x e => ⟨.define x e, ?_⟩, ?define, fun x => ⟨x, rfl⟩,
    fun x xs => ⟨x :: xs, ?_⟩, ⟨[], rfl⟩, fun xs e => ⟨xs, e, ?_⟩, fun x => ⟨x, rfl⟩, fun xs => ⟨xs, ?_⟩,
    fun e => ⟨e, rfl⟩, fun e => ⟨e, rfl⟩, fun e es => ⟨e :: es, ?_⟩, ⟨[], ?_⟩, ?apply, fun f as => ⟨.call f as, ?_⟩,
    fun x y z => ⟨.conditional x y z, ?_⟩, fun e => ⟨e, rfl⟩, fun e => ⟨e, rfl⟩, fun e => ⟨e, rfl⟩, trivial,
    by simp⟩
  case function =>
    rintro _ xs e rfl
    exact ⟨.function xs e, by rw [Expression.lexemes]⟩
  case operands =>
    rintro x _ y zs rfl
    exact ⟨x, y :: zs, by rw [Expression.allLexemes]⟩
  case define =>
    rintro x _ xs e rfl
    exact ⟨.define x (.function xs e), by simp [Statement.lexemes, Expression.lexemes, enclosed]⟩
  case apply =>
    rintro _ xs e rfl as
    exact ⟨.apply xs e as, by simp [Expression.lexemes, enclosed]⟩
  all_goals simp [Program.lexemes, Program.statements, Statement.lexemes, Expression.lexemes, Expression.allLexemes,
    enclosed, functionLexemes]

lemma Keeps.flatten {name : Symbol} {ss : List Symbol} {vs : List (List (List Char))} (h : Keeps name ss ws)
    (hvs : List.Forall₂ Meant ss vs) : Meant name (ws ++ vs.flatten) := by
  induction hvs generalizing ws with
  | nil =>
    rw [flatten_nil, append_nil]
    exact h
  | cons hv _ ih =>
    rw [flatten_cons, ← append_assoc]
    exact ih (h _ hv)

lemma meant_leaf (h : symbol w ∈ Symbol.terminals) (hs : ShortLexemes [w]) : Meant (symbol w) [w] := by
  rcases symbol_cases w with ⟨hsym, hn⟩ | ⟨hsym, ht⟩ | ⟨hsym, x, rfl⟩ | ⟨hfixed, hw⟩ | ⟨hsym, -⟩
  · have hshort : Text.exceedsDigitLimit (integer w) = false := by
      rw [← digitCount_numeral_le, numeral_integer hn]
      exact hs w (by simp) hn
    rw [hsym]
    exact ⟨⟨integer w, hshort⟩, by rw [numeral_integer hn]⟩
  · rw [hsym]
    rcases isTruth_iff.mp ht with rfl | rfl
    · exact ⟨true, rfl⟩
    · exact ⟨false, rfl⟩
  · rw [hsym]
    exact ⟨x, rfl⟩
  · have hall : ∀ s ∈ Symbol.fixed, Meant s [s.spelling] := by
      simp only [Symbol.fixed, forall_mem_cons]
      simp [Meant]
    have hmeant := hall _ hfixed
    rwa [← hw] at hmeant
  · rw [hsym] at h
    exact absurd h (by decide)

lemma meant_of_fits {d : Derivation} (h : d.Fits productions (· ∈ Symbol.terminals) symbol) (hs : ShortLexemes d.word) :
    Meant (d.root symbol) d.word := by
  induction h with
  | leaf w hw =>
    rw [word_leaf] at hs ⊢
    exact meant_leaf hw hs
  | node name ds hrule _ ih =>
    rw [word_node] at hs ⊢
    have hds : List.Forall₂ Meant (ds.map (root symbol)) (ds.map word) := by
      rw [forall₂_map_left_iff, forall₂_map_right_iff, forall₂_same]
      intro d hd
      exact ih d hd fun w hw => hs w (mem_flatMap_of_mem hd hw)
    exact (keeps_productions _ hrule).flatten hds

lemma isLexeme_of_symbol (h : grammar.isTerminal (symbol w) = true) : isLexeme w = true := by
  rcases symbol_cases w with ⟨-, hn⟩ | ⟨-, ht⟩ | ⟨-, x, rfl⟩ | ⟨hs, hw⟩ | ⟨hs, -⟩
  · simp [isLexeme, hn]
  · simp [isLexeme, ht]
  · simp [isLexeme, x.isWord]
  · rw [hw]
    exact (symbol_spelling _ hs).2
  · rw [isTerminal_iff, hs] at h
    exact absurd h (by decide)

lemma Program.isLexeme_of_mem (p : Program) : ∀ w ∈ p.lexemes, isLexeme w = true := by
  intro w hw
  rw [← p.word_derivation] at hw
  exact isLexeme_of_symbol (p.sound_derivation.fits.terminal_of_mem hw)

lemma Program.short_lexemes (p : Program) : ShortLexemes p.lexemes := by
  rw [← p.word_derivation]
  exact p.sound_derivation.short

lemma exists_program (hws : ∀ w ∈ ws, isLexeme w = true) (hs : ShortLexemes ws)
    (h : Derives productions [.program] (ws.map symbol)) : ∃ p : Program, p.lexemes = ws := by
  obtain ⟨d, hroot, rfl, hfits⟩ := h.tree fun w hw => symbol_mem_terminals (hws w hw)
  have hmeant := meant_of_fits hfits hs
  rw [hroot] at hmeant
  exact hmeant

end LispKit.Lisp
