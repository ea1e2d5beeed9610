import LispKit.Proofs.Lisp.Composition
import LispKit.Proofs.Lisp.Wording

/-! What a verbose run prints: tokens, trees and levels can always be written, and so can the store, unless a variable is
too long. -/

namespace LispKit.Lisp

open Lexeme Reading List Node

section Names

structure Store.Named (s : Store) : Prop where
  globals : ∀ e ∈ s.globals.entries, ∃ x, e.1.value = .text x
  functions : ∀ e ∈ s.functions.entries, ∃ x, e.1.value = .text x

lemma Node.IsTree.defined_name {n target name : Node} (h : n.IsTree) (hk : n.kind = .definition)
    (ht : n.children[0]? = some target) (hname : target.children[0]? = some name) : ∃ x, name.value = .text x := by
  obtain ⟨x, h⟩ := h
  induction h with
  | ofReference _ ih | ofFunction _ ih | ofExpression _ ih | statement _ ih | lastStatement _ ih => exact ih hk ht
  | variableDefinition h =>
    cases ht
    cases h with
    | reference h =>
      cases hname
      cases h
      exact ⟨_, rfl⟩
  | functionDefinition h =>
    cases ht
    cases h with
    | functionName h =>
      cases hname
      cases h
      exact ⟨_, rfl⟩
  | _ => simp [Node.kind] at hk

lemma named_insert {ν : Type} {r : Registry Key ν} (h : ∀ e ∈ r.entries, ∃ x, e.1.value = .text x) {name : Value}
    (hname : ∃ x, name = .text x) (v : ν) : ∀ e ∈ (r.insert ⟨name⟩ v).entries, ∃ x, e.1.value = .text x := by
  intro e he
  rcases Registry.mem_insert he with he | ⟨-, hkey | ⟨-, hkey⟩⟩
  · exact h e he
  · rw [hkey]
    exact hname
  · obtain ⟨e', he', heq⟩ := mem_map.mp hkey
    rw [← heq]
    exact h e' he'

def Kept (s t : Store) : Prop :=
  Grown s t ∧ (s.Named → t.Named)

lemma Extends.kept {s t : Store} (h : Extends s t) : Kept s t :=
  ⟨h.grown, fun hs => ⟨h.globals ▸ hs.globals, h.functions ▸ hs.functions⟩⟩

lemma Plain.kept {n : Node} {s t : Store} (h : Plain n s t) (hn : n.IsTree) : Kept s t := by
  refine ⟨h.grown hn, fun hs => ?_⟩
  cases h with
  | operators | print | argument | parameter => exact ⟨hs.globals, hs.functions⟩
  | global v hk ht _ hname => exact ⟨named_insert hs.globals (hn.defined_name hk ht hname) v, hs.functions⟩
  | function hk ht _ hname _ => exact ⟨hs.globals, named_insert hs.functions (hn.defined_name hk ht hname) _⟩

lemma stable_kept : Stable Node.IsTree Store.Proper Kept :=
  .of_extends id .child (fun h => ⟨_, h⟩) Extends.kept (fun h h' => ⟨h.1.trans h'.1, h'.2 ∘ h.2⟩) (fun h => h.1.2)
    fun hn h => h.kept hn

end Names

section Written

variable {β γ : Type} {f : β → Except Fault γ} {level : List Node} {v : Value}

lemma exists_ok_bind_iff {x : Except Fault β} : (∃ y, (x >>= f) = .ok y) ↔ ∃ b, x = .ok b ∧ ∃ y, f b = .ok y := by
  cases x with
  | error e => exact ⟨nofun, nofun⟩
  | ok b => exact ⟨fun h => ⟨b, rfl, h⟩, fun ⟨_, hb, h⟩ => Except.ok.inj hb ▸ h⟩

lemma exists_ok_mapM_iff {xs : List β} : (∃ ys, xs.mapM f = .ok ys) ↔ ∀ x ∈ xs, ∃ y, f x = .ok y := by
  induction xs with
  | nil => exact ⟨fun _ => forall_mem_nil _, fun _ => ⟨[], rfl⟩⟩
  | cons x xs ih =>
    rw [mapM_cons, exists_ok_bind_iff, forall_mem_cons, ← ih]
    constructor
    · rintro ⟨y, hy, hrest⟩
      obtain ⟨ys, hys, -⟩ := exists_ok_bind_iff.mp hrest
      exact ⟨⟨y, hy⟩, ys, hys⟩
    · rintro ⟨⟨y, hy⟩, ys, hys⟩
      exact ⟨y, hy, exists_ok_bind_iff.mpr ⟨ys, hys, _, rfl⟩⟩

lemma Value.exists_write_iff :
    (∃ text, v.write = .ok text) ↔ ∀ n, v = .int n → Text.exceedsDigitLimit n = false := by
  cases v with
  | nothing | bool | text => exact ⟨fun _ _ h => (by cases h), fun _ => ⟨_, rfl⟩⟩
  | int n =>
    rw [Value.write]
    cases hn : Text.exceedsDigitLimit n with
    | false => exact ⟨fun _ m hm => by cases hm; exact hn, fun _ => ⟨_, rfl⟩⟩
    | true => exact ⟨by rintro ⟨_, ⟨⟩⟩, fun h => by rw [h n rfl] at hn; cases hn⟩

lemma Value.exists_display (h : ∃ text, v.write = .ok text) : ∃ text, v.display = .ok text := by
  cases v with
  | text s => exact ⟨s, rfl⟩
  | nothing | int | bool => exact h

lemma Phrase.Writable.exists_display {p : Phrase} (h : p.Writable) : ∃ text, p.display = .ok text := by
  cases p with
  | text s => exact ⟨s, rfl⟩
  | nothing | node => exact h

lemma Node.writeAll_ok_iff {ns : List Node} : (∃ texts, Node.writeAll ns = .ok texts) ↔ ∀ n ∈ ns, n.Writable := by
  refine ⟨fun h => ?_, writeAll_ok⟩
  induction ns with
  | nil => exact forall_mem_nil _
  | cons n ns ih =>
    obtain ⟨text, hn, hrest⟩ := exists_ok_bind_iff.mp h
    obtain ⟨texts, hns, -⟩ := exists_ok_bind_iff.mp hrest
    exact forall_mem_cons.mpr ⟨⟨text, hn⟩, ih ⟨texts, hns⟩⟩

lemma Node.Writable.parts {n : Node} (h : n.Writable) : (∃ text, n.value.write = .ok text) ∧ ∀ c ∈ n.children, c.Writable := by
  obtain ⟨k, v, i, ns⟩ := n
  obtain ⟨text, hv, hrest⟩ := exists_ok_bind_iff.mp h
  obtain ⟨texts, hns, -⟩ := exists_ok_bind_iff.mp hrest
  exact ⟨⟨text, hv⟩, writeAll_ok_iff.mp ⟨texts, hns⟩⟩

lemma Node.writable_levelsFrom (h : ∀ n ∈ level, n.Writable) : ∀ l ∈ Node.levelsFrom level, ∀ n ∈ l, n.Writable := by
  induction level using levels_induction with
  | nil =>
    rw [Node.levelsFrom]
    exact forall_mem_nil _
  | cons n queue ih =>
    rw [levelsFrom_cons]
    refine forall_mem_cons.mpr ⟨h, ih ?_⟩
    intro c hc
    obtain ⟨m, hm, hc⟩ := mem_flatMap.mp hc
    exact (h m hm).parts.2 c hc

lemma Node.Writable.exists_label {n : Node} (h : n.Writable) : ∃ label, n.label = .ok label :=
  exists_ok_bind_iff.mpr ((Value.exists_display h.parts.1).imp fun _ hv => ⟨hv, _, rfl⟩)

section Drawn

variable {γ α ι : Type} [Add α] [Sub α] [Mul α] [Div α] [OfNat α 1] [OfNat α 2] [Add ι] [OfNat ι 1] (c : Canvas γ)
  (scale : ι → α) (s : Spacing α)

mutual

lemma exists_drawTree : ∀ (n : Node), n.Writable → ∀ (level : ι) (x : α) (g : Drawing γ α),
    ∃ r, drawTree c scale s level x g n = .ok r
  | .mk k v i cs, h, level, x, g => by
    obtain ⟨label, hlabel⟩ := h.exists_label
    rw [drawTree]
    exact exists_ok_bind_iff.mpr ⟨label, hlabel, exists_drawChildren cs h.parts.2 level label _ _⟩

lemma exists_drawChildren : ∀ (ns : List Node), (∀ n ∈ ns, n.Writable) → ∀ (level : ι) (parent : String) (x : α)
    (g : Drawing γ α), ∃ r, drawChildren c scale s level parent x g ns = .ok r
  | [], _, _, _, x, g => ⟨(g, x), by rw [drawChildren]⟩
  | n :: ns, h, level, parent, x, g => by
    obtain ⟨hn, hns⟩ := forall_mem_cons.mp h
    obtain ⟨label, hlabel⟩ := hn.exists_label
    rw [drawChildren]
    refine exists_ok_bind_iff.mpr ⟨label, hlabel, exists_ok_bind_iff.mpr ?_⟩
    obtain ⟨r, hr⟩ := exists_drawTree n hn (level + 1) (x + s.sibling) _
    exact ⟨r, hr, exists_drawChildren ns hns level parent _ _⟩

end

end Drawn

lemma exists_tableText_iff {ν : Type} {r : Registry Key ν} (h : ∀ e ∈ r.entries, ∃ x, e.1.value = .text x)
    {write : ν → Except Fault String} : (∃ text, Running.tableText r write = .ok text) ↔
      ∀ e ∈ r.entries, ∃ text, write e.2 = .ok text := by
  have hentry : ∀ e ∈ r.entries, (∃ text, (do
      let key ← e.1.value.write
      let text ← write e.2
      .ok (key ++ ": " ++ text) : Except Fault String) = .ok text) ↔ ∃ text, write e.2 = .ok text := by
    intro e he
    obtain ⟨x, hx⟩ := h e he
    rw [hx, exists_ok_bind_iff]
    constructor
    · rintro ⟨key, -, hrest⟩
      obtain ⟨text, htext, -⟩ := exists_ok_bind_iff.mp hrest
      exact ⟨text, htext⟩
    · rintro ⟨text, htext⟩
      exact ⟨_, rfl, exists_ok_bind_iff.mpr ⟨text, htext, _, rfl⟩⟩
  rw [Running.tableText, exists_ok_bind_iff]
  constructor
  · rintro ⟨texts, htexts, -⟩ e he
    exact (hentry e he).mp (exists_ok_mapM_iff.mp ⟨texts, htexts⟩ e he)
  · intro hall
    obtain ⟨texts, htexts⟩ := exists_ok_mapM_iff.mpr fun e he => (hentry e he).mpr (hall e he)
    exact ⟨texts, htexts, _, rfl⟩

end Written

namespace Running

def Prints (x : Running Unit) : Prop :=
  ∀ run : Run, ∃ d, SameFlags run.desk d ∧ x.run.run run = (.ok (), { run with desk := d })

section Printing

variable {α : Type} {x y : Running Unit} {f : α → Running Unit} {s : Store} {n : Node}

lemma prints_print (line : String) : Prints (print line) :=
  fun run => ⟨run.desk.print line, .print _ _, rfl⟩

lemma prints_write (text : String) : Prints (write text) :=
  fun run => ⟨run.desk.write text, ⟨rfl, rfl⟩, rfl⟩

lemma Prints.bind (hx : Prints x) (hy : Prints y) : Prints (x >>= fun _ => y) := by
  intro run
  obtain ⟨d, hflags, hrun⟩ := hx run
  obtain ⟨d', hflags', hrun'⟩ := hy { run with desk := d }
  refine ⟨d', hflags.trans hflags', ?_⟩
  rw [run_bind, hrun]
  exact hrun'

lemma prints_ofExcept {r : Except Fault α} (hr : ∃ a, r = .ok a) (hf : ∀ a, Prints (f a)) :
    Prints (ofExcept r >>= f) := by
  obtain ⟨a, rfl⟩ := hr
  intro run
  obtain ⟨d, hflags, hrun⟩ := hf a run
  refine ⟨d, hflags, ?_⟩
  rw [run_bind]
  exact hrun

lemma prints_forM {xs : List α} (h : ∀ a ∈ xs, Prints (f a)) : Prints (xs.forM f) := by
  induction xs with
  | nil => exact fun run => ⟨run.desk, ⟨rfl, rfl⟩, rfl⟩
  | cons a xs ih =>
    obtain ⟨ha, hxs⟩ := forall_mem_cons.mp h
    exact ha.bind (ih hxs)

lemma prints_tree (hn : n.Writable) : Prints (printTree (some n)) :=
  (prints_print _).bind (prints_ofExcept hn fun _ => (prints_print _).bind (prints_print _))

lemma prints_levels (hn : n.Writable) : Prints (printLevels (some n)) := by
  have hlevels : ∀ level ∈ n.levels, Prints (level.forM printNode >>= fun _ => print "") := by
    intro level hlevel
    have hall : ∀ m ∈ [n], m.Writable := by simpa using hn
    refine (prints_forM fun m hm => prints_ofExcept ?_ fun _ => prints_write _).bind (prints_print _)
    exact Value.exists_display (writable_levelsFrom hall level hlevel m hm).parts.1
  exact (prints_print _).bind ((prints_forM hlevels).bind (prints_print _))

lemma run_drawProgram (hn : n.Writable) (run : Run) : ∃ drawing, (drawProgram (some n)).run.run run =
    (.ok (), { run with drawing := drawing }) := by
  obtain ⟨r, hr⟩ := exists_drawTree Graph.canvas Float.ofInt spacing n hn 0 0.5 ⟨Graph.canvas.blank, {}⟩
  refine ⟨some r.1, ?_⟩
  rw [drawProgram, draw, hr]
  rfl

def storeText (s : Store) : Running Unit := do
  let globals ← ofExcept (tableText s.globals Value.write)
  print globals
  print "Function Dictionary:"
  let functions ← ofExcept (tableText s.functions fun _ => .ok functionText)
  print functions
  print "Function Stack:"
  print (listText (s.calls.map fun _ => functionText))
  print "Status Stack:"
  print (listText (s.scopes.reverse.map fun c => Text.quoted c.name))

lemma run_print (line : String) (run : Run) :
    (print line).run.run run = (.ok (), { run with desk := run.desk.print line }) := rfl

lemma run_get (run : Run) : (get : Running Run).run.run run = (.ok run, run) := rfl

lemma run_printStore (run : Run) : printStore.run.run run =
    (print separator >>= fun _ => print "Variable Dictionary:" >>= fun _ => storeText run.store).run.run run := by
  simp only [printStore, storeText, run_bind, run_print, run_get]

lemma prints_storeText (hs : s.Named) (hall : ∀ e ∈ s.globals.entries, ∃ text, e.2.write = .ok text) :
    Prints (storeText s) := by
  have hfunctions : ∃ text, tableText s.functions (fun _ => .ok functionText) = .ok text :=
    (exists_tableText_iff hs.functions).mpr fun _ _ => ⟨_, rfl⟩
  refine prints_ofExcept ((exists_tableText_iff hs.globals).mpr hall) fun _ => (prints_print _).bind ?_
  refine (prints_print _).bind (prints_ofExcept hfunctions fun _ => (prints_print _).bind ?_)
  exact (prints_print _).bind ((prints_print _).bind ((prints_print _).bind (prints_print _)))

lemma storeText_fails (hs : s.Named) (hall : ¬ ∀ e ∈ s.globals.entries, ∃ text, e.2.write = .ok text) :
    ∃ e, ∀ run : Run, (storeText s).run.run run = (.error e, run) := by
  rw [← exists_tableText_iff hs.globals] at hall
  cases htable : tableText s.globals Value.write with
  | ok text => exact absurd ⟨text, htable⟩ hall
  | error f =>
    refine ⟨.fault f, fun run => ?_⟩
    rw [storeText, htable, run_bind]
    rfl

end Printing

section Parts

variable {limits : Limits} {source : String} {e : Scanner.ScanError}

def noteToken (t : LispToken) (d : Desk) : Except Fault Desk := do
  let v ← t.value.display
  .ok (d.print (t.type ++ " " ++ v))

lemma noteToken_ok (w : List Char) (q : Nat) (d₀ d : Desk) (hw : isShort w = true) :
    ∃ d', noteToken (Lexeme.token w q d₀).1 d = .ok d' ∧ SameFlags d d' := by
  have hwritable : (Lexeme.token w q d₀).1.value.Writable := writable_word (isShort_iff.mp hw) ⟨q, d₀, rfl⟩
  obtain ⟨text, htext⟩ := hwritable.exists_display
  refine ⟨d.print ((Lexeme.token w q d₀).1.type ++ " " ++ text), ?_, .print d _⟩
  rw [noteToken, htext]
  rfl

lemma run_listTokens (hn : source.toList.length < limits.steps) (hd : 0 < limits.depth) (run : Run)
    (hscanner : run.scanner = scanner) : ∃ (q : Nat) (d : Desk), SameFlags run.desk d ∧
      (listTokens limits source).run.run run =
        (scanned (lexemes (pieces source.toList)), { run with scanner := placed scanner source.toList q, desk := d }) := by
  obtain ⟨q, d, hflags, hvisit⟩ := visit_placed (d := run.desk.print "Tokens:") lexical_scanner hd noteToken_ok
    limits.steps drop_zero hn hn
  rw [← input_eq_placed, ← hscanner] at hvisit
  unfold noteToken at hvisit
  simp only [listTokens, run_bind, run_print, run_get, hvisit]
  rw [hscanner]
  have hflags := (SameFlags.print run.desk _).trans hflags
  cases scanned (lexemes (pieces source.toList)) with
  | error e => exact ⟨q, d, hflags, rfl⟩
  | ok u => exact ⟨q, d.print separator, hflags.trans (.print d _), rfl⟩

lemma run_readSource_failed {run : Run} {c : Parser.Config Symbol Phrase Reading}
    (hread : read limits tables {} run.scanner run.desk source = .failed (.host e) c) :
    (readSource limits source).run.run run =
      (.error e, { run with scanner := c.host.scanner, desk := c.host.desk }) := by
  simp only [readSource, run_bind, run_get, hread]
  rfl

def exhibit (limits : Limits) (tree : Option Node) : Running Unit := do
  printTree tree
  printLevels tree
  print "Result:"
  evaluate limits tree
  printStore
  drawProgram tree

lemma run_verbose (limits : Limits) (source : String) (run : Run) : (program limits true source).run.run run =
    match (listTokens limits source).run.run run with
    | (.error e, run) => (.error e, run)
    | (.ok _, run) =>
      match (readSource limits source).run.run run with
      | (.error e, run) => (.error e, run)
      | (.ok tree, run) => (if run.desk.valid then exhibit limits tree else print "syntax error").run.run run := by
  unfold program
  simp only [if_true, run_bind, run_get]
  rcases (listTokens limits source).run.run run with ⟨_ | _, run'⟩
  · rfl
  · dsimp only
    rcases (readSource limits source).run.run run' with ⟨_ | tree, run''⟩
    · rfl
    · dsimp only
      split
      · simp only [exhibit, run_bind]
      · rfl

lemma run_close_failed {r : Except Fault Value} (h : failureOf r = some e) (run : Run) :
    (close r).run.run run = (.error e, run) := by
  cases r with
  | ok v => cases h
  | error f =>
    rw [failureOf] at h
    split at h
    · cases h
    · rename_i hf
      cases h
      rw [close, if_neg hf]
      rfl

lemma prints_close {r : Except Fault Value} (h : failureOf r = none) : Prints (close r) := by
  cases r with
  | ok v => exact fun run => ⟨run.desk, ⟨rfl, rfl⟩, rfl⟩
  | error f =>
    rw [failureOf] at h
    split at h
    · rename_i hf
      rw [close, if_pos hf]
      exact prints_print _
    · cases h

section Exhibit

variable {n : Node} (run : Run) {r : Except Fault Value} {t : Store} (hn : n.Writable)
  (he : Lisp.evaluate true limits.depth n { run.store with out := "" } = (r, t))

include hn he

lemma run_exhibit : ∃ d, SameFlags run.desk d ∧ (exhibit limits (some n)).run.run run =
    (close r >>= fun _ => printStore >>= fun _ => drawProgram (some n)).run.run { run with desk := d, store := t } := by
  obtain ⟨d₁, hflags₁, htree⟩ := prints_tree hn run
  obtain ⟨d₂, hflags₂, hlevels⟩ := prints_levels hn { run with desk := d₁ }
  have heval := run_evaluate limits n { run with desk := d₂.print "Result:" } he
  have hflags := (hflags₁.trans hflags₂).trans (.print d₂ "Result:")
  refine ⟨{ d₂.print "Result:" with out := (d₂.print "Result:").out ++ t.out }, ⟨hflags.valid, hflags.verbose⟩, ?_⟩
  rw [exhibit, run_bind, htree]
  dsimp only
  rw [run_bind, hlevels]
  dsimp only
  rw [run_bind, run_print]
  dsimp only
  rw [run_bind, heval, ← run_bind]

lemma run_exhibit_failed {e : Scanner.ScanError} (hr : failureOf r = some e) : ∃ d, SameFlags run.desk d ∧
    (exhibit limits (some n)).run.run run = (.error e, { run with desk := d, store := t }) := by
  obtain ⟨d, hflags, hrun⟩ := run_exhibit run hn he
  exact ⟨d, hflags, by rw [hrun, run_bind, run_close_failed hr]⟩

lemma run_exhibit_shown (hr : failureOf r = none) : ∃ d, SameFlags run.desk d ∧ (exhibit limits (some n)).run.run run =
    (storeText t >>= fun _ => drawProgram (some n)).run.run { run with desk := d, store := t } := by
  obtain ⟨d, hflags, hrun⟩ := run_exhibit run hn he
  obtain ⟨d₁, hflags₁, hclose⟩ := prints_close hr { run with desk := d, store := t }
  refine ⟨_, (hflags.trans hflags₁).trans ((SameFlags.print d₁ separator).trans (.print _ "Variable Dictionary:")), ?_⟩
  rw [hrun, run_bind, hclose]
  dsimp only
  rw [run_bind, run_printStore, run_bind, run_print]
  dsimp only
  rw [run_bind, run_print, ← run_bind]

end Exhibit

end Parts

end Running

end LispKit.Lisp
