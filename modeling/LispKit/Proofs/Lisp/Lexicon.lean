import LispKit.Proofs.Lisp.Lexeme
import LispKit.Proofs.Pattern.Match
import LispKit.Proofs.Scanner.Build

/-! The scanner of the language: what it was built to, and what it takes at the front of a text. -/

namespace LispKit.Lisp

open Scanner Pattern Lexeme

namespace Lexicon

def fixedRules : List (String × String × String) :=
  [("t_PRINT_BOOL", "PRINT_BOOL", "print-bool"), ("t_PRINT_NUM", "PRINT_NUM", "print-num"),
    ("t_DEF", "DEF", "define"), ("t_MOD", "MOD", "mod"), ("t_AND", "AND", "and"), ("t_NOT", "NOT", "not"),
    ("t_FUN", "FUN", "fun"), ("t_OR", "OR", "or"), ("t_IF", "IF", "if"), ("t_PLUS", "PLUS", "\\+"),
    ("t_MINUS", "MINUS", "\\-"), ("t_MUL", "MUL", "\\*"), ("t_LPAREN", "LPAREN", "\\("),
    ("t_RPAREN", "RPAREN", "\\)"), ("t_DIV", "DIV", "/"), ("t_Greater", "Greater", ">"),
    ("t_Less", "Less", "<"), ("t_Equal", "Equal", "=")]

def handler (edit : LispToken → Desk → Except Fault LispToken × Desk) : LispHandler :=
  .always ⟨[.edit edit], .keep⟩

def routines : List (String × Routine LispHandler) :=
  [("t_NUMBER", ⟨"t_NUMBER", some "0|[1-9][0-9]*|\\-[1-9][0-9]*", 1, 1, false, handler number⟩),
    ("t_BOOL", ⟨"t_BOOL", some "\\#t|\\#f", 2, 1, false, handler bool⟩),
    ("t_ID", ⟨"t_ID", some "[a-z]([a-z]|[0-9]|\\-)*", 3, 1, false, handler identifier⟩)]

def declared : Scanner.Declared Phrase Desk where
  tokens := .list (tokenTypes.map .text)
  literals := .list (["(", ")", "+", "-", "*", "/", ">", "<", "="].map .text)
  tokenNames := ⟨[("t_PRINT_NUM", "PRINT_NUM"), ("t_PRINT_BOOL", "PRINT_BOOL"), ("t_MOD", "MOD"),
    ("t_AND", "AND"), ("t_OR", "OR"), ("t_NOT", "NOT"), ("t_DEF", "DEF"), ("t_IF", "IF"), ("t_FUN", "FUN"),
    ("t_PLUS", "PLUS"), ("t_MINUS", "MINUS"), ("t_MUL", "MUL"), ("t_DIV", "DIV"),
    ("t_Greater", "Greater"), ("t_Less", "Less"), ("t_Equal", "Equal"), ("t_LPAREN", "LPAREN"),
    ("t_RPAREN", "RPAREN"), ("t_ignore", "ignore"), ("t_NUMBER", "NUMBER"), ("t_BOOL", "BOOL"),
    ("t_ID", "ID"), ("t_error", "error")]⟩
  routines := ⟨[(initialState, routines)]⟩
  texts := ⟨[(initialState, fixedRules.map fun r => (r.1, r.2.2))]⟩
  ignored := ⟨[(initialState, " \t\n\r")]⟩
  onError := ⟨[(initialState, ⟨"t_error", none, 4, 1, false, .always ⟨[.edit illegal, .skip 1], .drop⟩⟩)]⟩

set_option maxRecDepth 10000 in
lemma read_declarations : (Scanner.Declared.read declarations).run.run {} = (.ok declared, {}) := by
  rfl

lemma check_declared : (declared.check declarations { verbose := true }).run.run {} = (.ok (), {}) := by
  apply Logging.run_of_passes
  decide +kernel

def repeated (p : Pattern) : Pattern :=
  .times 0 none .most p

def range (a b : Char) : Pattern :=
  .oneOf false [.range a b]

def numeral : Pattern :=
  .alt (.char '0') (.alt (.seq (range '1' '9') (repeated (range '0' '9')))
    (.seq (.seq (.char '-') (range '1' '9')) (repeated (range '0' '9'))))

def truth : Pattern :=
  .alt (.seq (.char '#') (.char 't')) (.seq (.char '#') (.char 'f'))

def wordChar : Pattern :=
  .group 4 (.alt (range 'a' 'z') (.alt (range '0' '9') (.char '-')))

def word : Pattern :=
  .seq (range 'a' 'z') (repeated wordChar)

def fixedTexts : List (List Char) :=
  ["print-num".toList, "define".toList, "mod".toList, "and".toList, "not".toList, "fun".toList,
    "or".toList, "if".toList, ['+'], ['-'], ['*'], ['('], [')'], ['/'], ['>'], ['<'], ['=']]

def compiled : Compiled where
  pattern := .alt (.group 1 numeral) (.alt (.group 2 truth) (.alt (.group 3 word)
    (literals 5 "print-bool".toList fixedTexts)))
  names := [("t_NUMBER", 1), ("t_BOOL", 2), ("t_ID", 3)] ++
    (fixedRules.zipIdx 5).map fun r => (r.1.1, r.2)
  ignoreCase := false

def groups : List String :=
  (Build.ruleTexts declared initialState).map fun r => Scanner.Declared.groupText r.1 r.2

instance decidableEqExcept {ε α : Type} [DecidableEq ε] [DecidableEq α] : DecidableEq (Except ε α)
  | .ok a, .ok b => decidable_of_iff (a = b) ⟨congrArg Except.ok, Except.ok.inj⟩
  | .error e, .error f => decidable_of_iff (e = f) ⟨congrArg Except.error, Except.error.inj⟩
  | .ok _, .error _ => isFalse nofun
  | .error _, .ok _ => isFalse nofun

lemma compile_groups : compile ("|".intercalate groups) { verbose := true } = .ok compiled := by
  unfold compile
  rw [String.toList_intercalate]
  decide +kernel

def targets : List (Nat × Target Phrase Desk) :=
  [(1, .handled "NUMBER" (handler number)), (2, .handled "BOOL" (handler bool)),
    (3, .handled "ID" (handler identifier))] ++ (fixedRules.zipIdx 5).map fun r => (r.2, .token r.1.2.1)

lemma mapM_targetOf :
    compiled.names.mapM (Build.targetOf declarations declared.tokenNames) = some (targets.map some) := by
  rfl

def master : Master Phrase Desk :=
  ⟨"|".intercalate groups, compiled, (targets.map some).filterMap id,
    (compiled.names.filter fun n => Build.isSet declarations n.1).map Prod.fst⟩

lemma master_groups :
    Build.master? declarations declared.tokenNames (Pattern.compile? { verbose := true }) groups = some master := by
  have hcompile : Pattern.compile? { verbose := true } ("|".intercalate groups) = some compiled := by
    rw [Pattern.compile?, compile_groups]
    rfl
  exact Build.master?_of_compile hcompile (by decide) mapM_targetOf

end Lexicon

open Lexicon

lemma scanner_eq : scanner = Build.start (Build.rulesOf declared ⟨[(initialState, [master])]⟩) := by
  obtain ⟨states, types, logs, h⟩ := Build.build_of_parts read_declarations check_declared rfl
    (Build.masters_of_master _ (by decide) master_groups) rfl
  unfold scanner
  exact congrArg builtScanner h

@[simp] lemma scanner_masters : scanner.masters = [master] := by
  rw [scanner_eq]
  rfl

@[simp] lemma scanner_ignored : scanner.ignored = " \t\n\r" := by
  rw [scanner_eq]
  rfl

@[simp] lemma scanner_onError : scanner.onError = some (.always ⟨[.edit illegal, .skip 1], .drop⟩) := by
  rw [scanner_eq]
  rfl

@[simp] lemma scanner_onEnd : scanner.onEnd = none := by
  rw [scanner_eq]
  rfl

@[simp] lemma scanner_line : scanner.line = 1 := by
  rw [scanner_eq]
  rfl

@[simp] lemma scanner_literals : scanner.rules.literals = "()+-*/><=" := by
  rw [scanner_eq]
  decide +kernel

end LispKit.Lisp
