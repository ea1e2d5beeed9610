import LispKit.Proofs.Lisp.Automaton
import LispKit.Proofs.Lisp.Scan
import LispKit.Proofs.Lisp.Tree

/-! Programs as abstract syntax: the lexemes they are spelled with, the trees that stand for them, and their
derivations from the grammar. -/

namespace LispKit.Lisp

open Lexeme ParseTree List

structure Name where
  word : List Char
  isWord : Lexeme.isWord word = true
  unreserved : Lexicon.reserved.lookup (String.ofList word) = none

def Name.text (x : Name) : String :=
  String.ofList x.word

structure Literal where
  value : Int
  short : Text.exceedsDigitLimit value = false

inductive Expression where
  | number (n : Literal)
  | truth (b : Bool)
  | name (x : Name)
  | chain (b : Binary) (variadic : b.IsVariadic) (x y : Expression) (zs : List Expression)
  | pair (b : Binary) (strict : ¬ b.IsVariadic) (x y : Expression)
  | not (x : Expression)
  | function (xs : List Name) (body : Expression)
  | apply (xs : List Name) (body : Expression) (as : List Expression)
  | call (f : Name) (as : List Expression)
  | conditional (test consequence alternative : Expression)

inductive Statement where
  | expression (e : Expression)
  | printNumber (e : Expression)
  | printBool (e : Expression)
  | define (x : Name) (e : Expression)

structure Program where
  first : Statement
  rest : List Statement

def Program.statements (p : Program) : List Statement :=
  p.first :: p.rest

section Lexemes

def Symbol.spelling : Symbol → List Char
  | plus => ['+']
  | minus => ['-']
  | times => ['*']
  | divide => ['/']
  | greater => ['>']
  | less => ['<']
  | equal => ['=']
  | open_ => ['(']
  | close => [')']
  | printNumber => ['p', 'r', 'i', 'n', 't', '-', 'n', 'u', 'm']
  | printBool => ['p', 'r', 'i', 'n', 't', '-', 'b', 'o', 'o', 'l']
  | modulo => ['m', 'o', 'd']
  | and => ['a', 'n', 'd']
  | or => ['o', 'r']
  | not => ['n', 'o', 't']
  | define => ['d', 'e', 'f', 'i', 'n', 'e']
  | if_ => ['i', 'f']
  | fun_ => ['f', 'u', 'n']
  | _ => []

def Binary.symbol : Binary → Symbol
  | plus => .plus
  | minus => .minus
  | times => .times
  | divide => .divide
  | modulo => .modulo
  | greater => .greater
  | less => .less
  | equal => .equal
  | and => .and
  | or => .or

def enclosed (ws : List (List Char)) : List (List Char) :=
  Symbol.open_.spelling :: ws ++ [Symbol.close.spelling]

def functionLexemes (xs : List Name) (body : List (List Char)) : List (List Char) :=
  enclosed (Symbol.fun_.spelling :: enclosed (xs.map Name.word) ++ body)

mutual

def Expression.lexemes : Expression → List (List Char)
  | .number n => [numeral n.value]
  | .truth b => [['#', if b then 't' else 'f']]
  | .name x => [x.word]
  | .chain b _ x y zs => enclosed (b.symbol.spelling :: x.lexemes ++ y.lexemes ++ Expression.allLexemes zs)
  | .pair b _ x y => enclosed (b.symbol.spelling :: x.lexemes ++ y.lexemes)
  | .not x => enclosed (Symbol.not.spelling :: x.lexemes)
  | .function xs body => functionLexemes xs body.lexemes
  | .apply xs body as => enclosed (functionLexemes xs body.lexemes ++ Expression.allLexemes as)
  | .call f as => enclosed (f.word :: Expression.allLexemes as)
  | .conditional x y z => enclosed (Symbol.if_.spelling :: x.lexemes ++ y.lexemes ++ z.lexemes)

def Expression.allLexemes : List Expression → List (List Char)
  | [] => []
  | e :: es => e.lexemes ++ Expression.allLexemes es

end

def Statement.lexemes : Statement → List (List Char)
  | .expression e => e.lexemes
  | .printNumber e => enclosed (Symbol.printNumber.spelling :: e.lexemes)
  | .printBool e => enclosed (Symbol.printBool.spelling :: e.lexemes)
  | .define x e => enclosed (Symbol.define.spelling :: x.word :: e.lexemes)

def Program.lexemes (p : Program) : List (List Char) :=
  p.statements.flatMap Statement.lexemes

end Lexemes

section Nodes

def Node.operands (n : Node) : List Node → Node
  | [] => n
  | m :: ms => branch .operands [n, operands m ms]

mutual

def Expression.node : Expression → Node
  | .number n => .number n.value
  | .truth b => .mk .bool (.bool b) 0 []
  | .name x => .reference x.text
  | .chain b _ x y zs => .branch (.binary b) [x.node, .operands y.node (Expression.nodes zs)]
  | .pair b _ x y => .branch (.binary b) [x.node, y.node]
  | .not x => .branch .negation [x.node]
  | .function xs body => .function (xs.map Name.text) body.node
  | .apply xs body as =>
    .branch .callAnonymous [.function (xs.map Name.text) body.node, .arguments (Expression.nodes as)]
  | .call f as => .call f.text (Expression.nodes as)
  | .conditional x y z =>
    .branch .conditional [.branch .test [x.node], .branch .consequence [y.node], .branch .alternative [z.node]]

def Expression.nodes : List Expression → List Node
  | [] => []
  | e :: es => e.node :: Expression.nodes es

end

def Statement.node : Statement → Node
  | .expression e => e.node
  | .printNumber e => .branch .printNumber [e.node]
  | .printBool e => .branch .printBool [e.node]
  | .define x (.function xs body) => .defineFunction x.text (xs.map Name.text) body.node
  | .define x e => .define x.text e.node

def Program.node (p : Program) : Node :=
  .program p.first.node (p.rest.map Statement.node)

end Nodes

abbrev Derivation := ParseTree Symbol (List Char)

section Derivations

def Binary.group : Binary → Symbol
  | and => .logicalOperation
  | or => .logicalOperation
  | _ => .numericOperation

namespace Derivation

def mark (s : Symbol) : Derivation :=
  .leaf s.spelling

def operands (d : Derivation) : List Derivation → Derivation
  | [] => .node .expressions [d]
  | e :: es => .node .expressions [d, operands e es]

def reference (x : Name) : Derivation :=
  .node .reference [.leaf x.word]

def references : List Name → Derivation
  | [] => .node .references [.node .empty []]
  | x :: xs => .node .references [reference x, references xs]

def function (xs : List Name) (d : Derivation) : Derivation :=
  .node .function [mark .open_, mark .fun_, .node .parameters [mark .open_, references xs, mark .close],
    .node .body [d], mark .close]

def arguments : List Derivation → Derivation
  | [] => .node .arguments [.node .empty []]
  | d :: ds => .node .arguments [.node .argument [d], arguments ds]

end Derivation

open Lisp.Derivation

mutual

def Expression.derivation : Expression → Derivation
  | .number n => .node .expression [.leaf (numeral n.value)]
  | .truth b => .node .expression [.leaf ['#', if b then 't' else 'f']]
  | .name x => .node .expression [reference x]
  | .chain b _ x y zs => .node .expression [.node b.group [mark .open_, mark b.symbol, x.derivation,
      operands y.derivation (Expression.derivations zs), mark .close]]
  | .pair b _ x y => .node .expression [.node b.group [mark .open_, mark b.symbol, x.derivation, y.derivation,
      mark .close]]
  | .not x => .node .expression [.node .logicalOperation [mark .open_, mark .not, x.derivation, mark .close]]
  | .function xs body => .node .expression [Derivation.function xs body.derivation]
  | .apply xs body as => .node .expression [.node .call [mark .open_, Derivation.function xs body.derivation,
      arguments (Expression.derivations as), mark .close]]
  | .call f as => .node .expression [.node .call [mark .open_, .node .functionName [.leaf f.word],
      arguments (Expression.derivations as), mark .close]]
  | .conditional x y z => .node .expression [.node .conditional [mark .open_, mark .if_,
      .node .test [x.derivation], .node .consequence [y.derivation], .node .alternative [z.derivation],
      mark .close]]

def Expression.derivations : List Expression → List Derivation
  | [] => []
  | e :: es => e.derivation :: Expression.derivations es

end

def Statement.derivation : Statement → Derivation
  | .expression e => .node .statement [e.derivation]
  | .printNumber e =>
    .node .statement [.node .printStatement [mark .open_, mark .printNumber, e.derivation, mark .close]]
  | .printBool e =>
    .node .statement [.node .printStatement [mark .open_, mark .printBool, e.derivation, mark .close]]
  | .define x e =>
    .node .statement [.node .definition [mark .open_, mark .define, reference x, e.derivation, mark .close]]

def Derivation.statements (s : Statement) : List Statement → Derivation
  | [] => .node .statements [s.derivation]
  | t :: ts => .node .statements [s.derivation, statements t ts]

def Program.derivation (p : Program) : Derivation :=
  .node .program [Derivation.statements p.first p.rest]

end Derivations

namespace Expression

/-- Induction over expressions, where the parts of a list are known one by one. -/
theorem induct {P : Expression → Prop} (number : ∀ n, P (.number n)) (truth : ∀ b, P (.truth b))
    (name : ∀ x, P (.name x)) (chain : ∀ b h x y zs, P x → P y → (∀ z ∈ zs, P z) → P (.chain b h x y zs))
    (pair : ∀ b h x y, P x → P y → P (.pair b h x y)) (not : ∀ x, P x → P (.not x))
    (function : ∀ xs e, P e → P (.function xs e)) (apply : ∀ xs e as, P e → (∀ a ∈ as, P a) → P (.apply xs e as))
    (call : ∀ f as, (∀ a ∈ as, P a) → P (.call f as))
    (conditional : ∀ x y z, P x → P y → P z → P (.conditional x y z)) (e : Expression) : P e :=
  @Expression.rec P (fun es => ∀ e ∈ es, P e) number truth name chain pair not function apply call conditional
    (by simp) (by simp_all) e

lemma allLexemes_eq (es : List Expression) : allLexemes es = es.flatMap lexemes := by
  induction es with
  | nil => rfl
  | cons e es ih => rw [allLexemes, ih, flatMap_cons]

lemma nodes_eq (es : List Expression) : nodes es = es.map node := by
  induction es with
  | nil => rfl
  | cons e es ih => rw [nodes, ih, map_cons]

lemma derivations_eq (es : List Expression) : derivations es = es.map derivation := by
  induction es with
  | nil => rfl
  | cons e es ih => rw [derivations, ih, map_cons]

end Expression

open Lisp.Derivation

def Lexeme.symbol (w : List Char) : Symbol :=
  .ofTokenType (type w)

def Symbol.fixed : List Symbol :=
  [.plus, .minus, .times, .divide, .greater, .less, .equal, .open_, .close, .printNumber, .printBool, .modulo, .and, .or,
    .not, .define, .if_, .fun_]

lemma mem_terminals_of_fixed {s : Symbol} (h : s ∈ Symbol.fixed) : s ∈ Symbol.terminals := by
  have hall : ∀ s ∈ Symbol.fixed, s ∈ Symbol.terminals := by decide
  exact hall s h

lemma symbol_spelling : ∀ s ∈ Symbol.fixed, symbol s.spelling = s ∧ isLexeme s.spelling = true := by
  decide +kernel

lemma symbol_numeral {w : List Char} (h : isNumeral w = true) : symbol w = .number := by
  rw [symbol, type, if_pos h]
  rfl

lemma symbol_truth (b : Bool) : symbol ['#', if b then 't' else 'f'] = .bool := by
  cases b <;> rfl

lemma Name.symbol_word (x : Name) : symbol x.word = .identifier := by
  have ht : Lexeme.type x.word = "ID" := by
    by_contra hne
    obtain ⟨r, hr, heq⟩ := mem_map.mp ((type_word x.isWord).mp hne)
    have := lookup_eq_none_iff.mp x.unreserved r hr
    simp [heq] at this
  rw [symbol, ht]
  rfl

lemma Binary.symbol_mem_fixed (b : Binary) : b.symbol ∈ Symbol.fixed := by
  cases b <;> decide

section Words

@[simp] lemma word_leaf (w : List Char) : (.leaf w : Derivation).word = [w] := by
  rw [ParseTree.word]

@[simp] lemma word_node (name : Symbol) (ds : List Derivation) : (.node name ds : Derivation).word = ds.flatMap word := by
  rw [ParseTree.word, words_eq]

@[simp] lemma word_mark (s : Symbol) : (mark s).word = [s.spelling] := by
  rw [mark, word_leaf]

lemma word_operands (d : Derivation) (ds : List Derivation) : (operands d ds).word = d.word ++ ds.flatMap word := by
  induction ds generalizing d with
  | nil => simp [operands]
  | cons e ds ih => simp [operands, ih]

lemma word_reference (x : Name) : (Derivation.reference x).word = [x.word] := by
  simp [Derivation.reference]

lemma word_references (xs : List Name) : (references xs).word = xs.map Name.word := by
  induction xs with
  | nil => simp [references]
  | cons x xs ih => simp [references, ih, word_reference]

lemma word_function (xs : List Name) (d : Derivation) :
    (Derivation.function xs d).word = functionLexemes xs d.word := by
  simp [Derivation.function, functionLexemes, enclosed, word_references]

lemma word_arguments (ds : List Derivation) : (arguments ds).word = ds.flatMap word := by
  induction ds with
  | nil => simp [arguments]
  | cons d ds ih => simp [arguments, ih]

lemma flatMap_congr_word {es : List Expression} (h : ∀ e ∈ es, e.derivation.word = e.lexemes) :
    (Expression.derivations es).flatMap word = Expression.allLexemes es := by
  rw [Expression.derivations_eq, Expression.allLexemes_eq, flatMap_map]
  exact flatMap_congr h

lemma Expression.word_derivation (e : Expression) : e.derivation.word = e.lexemes := by
  induction e using Expression.induct with
  | number n => simp [derivation, lexemes]
  | truth b => simp [derivation, lexemes]
  | name x => simp [derivation, lexemes, word_reference]
  | chain b h x y zs hx hy hzs =>
    simp [derivation, lexemes, word_operands, hx, hy, flatMap_congr_word hzs, enclosed]
  | pair b h x y hx hy => simp [derivation, lexemes, hx, hy, enclosed]
  | not x hx => simp [derivation, lexemes, hx, enclosed]
  | function xs e he => simp [derivation, lexemes, word_function, he]
  | apply xs e as he has =>
    simp [derivation, lexemes, word_function, he, word_arguments, flatMap_congr_word has, enclosed]
  | call f as has => simp [derivation, lexemes, word_arguments, flatMap_congr_word has, enclosed]
  | conditional x y z hx hy hz => simp [derivation, lexemes, hx, hy, hz, enclosed]

lemma Statement.word_derivation (s : Statement) : s.derivation.word = s.lexemes := by
  cases s <;> simp [derivation, lexemes, Expression.word_derivation, enclosed, word_reference]

lemma word_statements (s : Statement) (ts : List Statement) :
    (Derivation.statements s ts).word = (s :: ts).flatMap Statement.lexemes := by
  induction ts generalizing s with
  | nil => simp [statements, Statement.word_derivation]
  | cons t ts ih => simp [statements, Statement.word_derivation, ih]

lemma Program.word_derivation (p : Program) : p.derivation.word = p.lexemes := by
  simp [derivation, word_statements, lexemes, statements]

end Words

section Fitting

def ShortLexemes (ws : List (List Char)) : Prop :=
  ∀ w ∈ ws, isNumeral w = true → digitCount w ≤ Text.digitLimit

structure Derivation.Sound (d : Derivation) (s : Symbol) : Prop where
  root : d.root symbol = s
  fits : d.Fits preferred (grammar.isTerminal · = true) symbol
  short : ShortLexemes d.word

lemma sound_leaf {w : List Char} {s : Symbol} (h : symbol w = s) (hs : s ∈ Symbol.terminals) (hne : s ≠ .number) :
    Sound (.leaf w) s := by
  refine ⟨h, .leaf w (isTerminal_iff.mpr (.inl (h ▸ hs))), ?_⟩
  intro v hv hn
  obtain rfl : v = w := by simpa using hv
  exact absurd (h.symm.trans (symbol_numeral hn)) hne

lemma sound_number (n : Literal) : Sound (.leaf (numeral n.value)) .number := by
  have hs := symbol_numeral (isNumeral_numeral n.value)
  refine ⟨hs, .leaf _ (isTerminal_iff.mpr (.inl (hs ▸ by decide))), ?_⟩
  intro v hv _
  obtain rfl : v = numeral n.value := by simpa using hv
  exact (digitCount_numeral_le n.value).mpr n.short

lemma sound_mark {s : Symbol} (h : s ∈ Symbol.fixed) : Sound (mark s) s :=
  sound_leaf (symbol_spelling s h).1 (mem_terminals_of_fixed h) fun hs => absurd (hs ▸ h) (by decide)

variable {ds : List Derivation} {d : Derivation} {b : Binary}

lemma sound_node {name : Symbol} {ss : List Symbol} (hrule : (name, ss) ∈ preferred)
    (h : List.Forall₂ Sound ds ss) : Sound (.node name ds) name := by
  have hroots : ds.map (root symbol) = ss := by
    rw [← forall₂_eq_eq_eq, forall₂_map_left_iff]
    exact h.imp fun _ _ hd => hd.root
  have hsound : ∀ d ∈ ds, ∃ s, Sound d s := by
    intro d hd
    obtain ⟨i, hi, rfl⟩ := mem_iff_getElem.mp hd
    exact ⟨_, h.get hi (h.length_eq ▸ hi)⟩
  refine ⟨rfl, .node name ds (hroots ▸ hrule) ?_, ?_⟩
  · intro d hd
    obtain ⟨s, hs⟩ := hsound d hd
    exact hs.fits
  · intro w hw
    rw [word_node] at hw
    obtain ⟨d, hd, hw⟩ := mem_flatMap.mp hw
    obtain ⟨s, hs⟩ := hsound d hd
    exact hs.short w hw

lemma sound_unit {name s : Symbol} (hrule : (name, [s]) ∈ preferred) (h : Sound d s) : Sound (.node name [d]) name :=
  sound_node hrule (.cons h .nil)

lemma sound_reference (x : Name) : Sound (Derivation.reference x) .reference :=
  sound_unit (by decide) (sound_leaf x.symbol_word (by decide) (by decide))

lemma sound_empty : Sound (.node .empty []) .empty := by
  have hrule : (.empty, []) ∈ preferred := by decide
  exact sound_node hrule .nil

lemma sound_operands (h : ∀ e ∈ d :: ds, Sound e .expression) : Sound (operands d ds) .expressions := by
  induction ds generalizing d with
  | nil => exact sound_unit (by decide) (h d (by simp))
  | cons e ds ih =>
    exact sound_node (by decide) (.cons (h d (by simp)) (.cons (ih fun x hx => h x (by simp_all)) .nil))

lemma sound_references (xs : List Name) : Sound (references xs) .references := by
  induction xs with
  | nil => exact sound_unit (by decide) sound_empty
  | cons x xs ih => exact sound_node (by decide) (.cons (sound_reference x) (.cons ih .nil))

lemma sound_open : Sound (mark .open_) .open_ :=
  sound_mark (by decide)

lemma sound_close : Sound (mark .close) .close :=
  sound_mark (by decide)

lemma sound_function (xs : List Name) (h : Sound d .expression) : Sound (Derivation.function xs d) .function := by
  have hxs : Sound (.node .parameters [mark .open_, references xs, mark .close]) .parameters :=
    sound_node (by decide) (.cons sound_open (.cons (sound_references xs) (.cons sound_close .nil)))
  exact sound_node (by decide) (.cons sound_open (.cons (sound_mark (by decide)) (.cons hxs
    (.cons (sound_unit (by decide) h) (.cons sound_close .nil)))))

lemma sound_arguments (h : ∀ d ∈ ds, Sound d .expression) : Sound (arguments ds) .arguments := by
  induction ds with
  | nil => exact sound_unit (by decide) sound_empty
  | cons d ds ih =>
    exact sound_node (by decide) (.cons (sound_unit (by decide) (h d (by simp)))
      (.cons (ih fun x hx => h x (by simp [hx])) .nil))

lemma Binary.chain_mem (h : b.IsVariadic) :
    (b.group, [.open_, b.symbol, .expression, .expressions, .close]) ∈ preferred := by
  cases b <;> first | decide | exact absurd h (by decide)

lemma Binary.pair_mem (h : ¬ b.IsVariadic) :
    (b.group, [.open_, b.symbol, .expression, .expression, .close]) ∈ preferred := by
  cases b <;> first | decide | exact absurd (by decide) h

lemma Binary.group_mem (b : Binary) : (.expression, [b.group]) ∈ preferred := by
  cases b <;> decide

lemma sound_derivations {es : List Expression} (h : ∀ e ∈ es, Sound e.derivation .expression) :
    ∀ d ∈ Expression.derivations es, Sound d .expression := by
  intro d hd
  rw [Expression.derivations_eq] at hd
  obtain ⟨e, he, rfl⟩ := mem_map.mp hd
  exact h e he

lemma Expression.sound_derivation (e : Expression) : Sound e.derivation .expression := by
  induction e using Expression.induct with
  | number n => exact sound_unit (by decide) (sound_number n)
  | truth b => exact sound_unit (by decide) (sound_leaf (symbol_truth b) (by decide) (by decide))
  | name x => exact sound_unit (by decide) (sound_reference x)
  | chain b h x y zs hx hy hzs =>
    have hoperands : Sound (operands y.derivation (derivations zs)) .expressions :=
      sound_operands (forall_mem_cons.mpr ⟨hy, sound_derivations hzs⟩)
    exact sound_unit b.group_mem (sound_node (Binary.chain_mem h) (.cons sound_open
      (.cons (sound_mark b.symbol_mem_fixed) (.cons hx (.cons hoperands (.cons sound_close .nil))))))
  | pair b h x y hx hy =>
    exact sound_unit b.group_mem (sound_node (Binary.pair_mem h) (.cons sound_open
      (.cons (sound_mark b.symbol_mem_fixed) (.cons hx (.cons hy (.cons sound_close .nil))))))
  | not x hx =>
    exact sound_unit (s := .logicalOperation) (by decide) (sound_node (by decide) (.cons sound_open
      (.cons (sound_mark (by decide)) (.cons hx (.cons sound_close .nil)))))
  | function xs e he => exact sound_unit (by decide) (sound_function xs he)
  | apply xs e as he has =>
    exact sound_unit (s := .call) (by decide) (sound_node (by decide) (.cons sound_open (.cons (sound_function xs he)
      (.cons (sound_arguments (sound_derivations has)) (.cons sound_close .nil)))))
  | call f as has =>
    have hf : Sound (.node .functionName [.leaf f.word]) .functionName :=
      sound_unit (by decide) (sound_leaf f.symbol_word (by decide) (by decide))
    exact sound_unit (s := .call) (by decide) (sound_node (by decide) (.cons sound_open (.cons hf
      (.cons (sound_arguments (sound_derivations has)) (.cons sound_close .nil)))))
  | conditional x y z hx hy hz =>
    exact sound_unit (s := .conditional) (by decide) (sound_node (by decide) (.cons sound_open (.cons (sound_mark (by decide))
      (.cons (sound_unit (by decide) hx) (.cons (sound_unit (by decide) hy) (.cons (sound_unit (by decide) hz)
        (.cons sound_close .nil)))))))

lemma Statement.sound_derivation (s : Statement) : Sound s.derivation .statement := by
  cases s with
  | expression e => exact sound_unit (by decide) e.sound_derivation
  | printNumber e | printBool e =>
    exact sound_unit (s := .printStatement) (by decide) (sound_node (by decide) (.cons sound_open
      (.cons (sound_mark (by decide)) (.cons e.sound_derivation (.cons sound_close .nil)))))
  | define x e =>
    exact sound_unit (s := .definition) (by decide) (sound_node (by decide) (.cons sound_open
      (.cons (sound_mark (by decide)) (.cons (sound_reference x) (.cons e.sound_derivation (.cons sound_close .nil))))))

lemma sound_statements (s : Statement) (ts : List Statement) : Sound (Derivation.statements s ts) .statements := by
  induction ts generalizing s with
  | nil => exact sound_unit (by decide) s.sound_derivation
  | cons t ts ih => exact sound_node (by decide) (.cons s.sound_derivation (.cons (ih t) .nil))

lemma Program.sound_derivation (p : Program) : Sound p.derivation .program :=
  sound_unit (by decide) (sound_statements p.first p.rest)

end Fitting

end LispKit.Lisp
