import LispKit.Proofs.Lisp.Acceptance
import LispKit.Proofs.Parser.Mode
import LispKit.Proofs.Parser.Outcome

/-! Reading programs in every mode: with and without reductions before the next token, with and without places and a
trace, a source is read alike. -/

namespace LispKit.Lisp

open Lexeme Reading ParseTree List Node

section Writable

def Node.Writable (n : Node) : Prop :=
  ∃ text, n.write = .ok text

def Phrase.Writable (p : Phrase) : Prop :=
  ∃ text, p.write = .ok text

variable {ns : List Node}

lemma Node.writeAll_ok (h : ∀ n ∈ ns, n.Writable) : ∃ texts, Node.writeAll ns = .ok texts := by
  induction ns with
  | nil => exact ⟨[], rfl⟩
  | cons n ns ih =>
    obtain ⟨hn, hns⟩ := forall_mem_cons.mp h
    exact Parser.exists_ok_bind hn fun _ _ => Parser.exists_ok_bind (ih hns) fun _ _ => ⟨_, rfl⟩

lemma Node.writable_mk (k : Kind) {v : Value} (i : Int) (hv : ∃ text, v.write = .ok text)
    (hns : ∀ n ∈ ns, n.Writable) : (Node.mk k v i ns).Writable :=
  Parser.exists_ok_bind hv fun _ _ => Parser.exists_ok_bind (writeAll_ok hns) fun _ _ => ⟨_, rfl⟩

lemma Node.writable_withKind {n : Node} (h : n.Writable) (k : Kind) : (n.withKind k).Writable := by
  obtain ⟨k₀, v, i, ns⟩ := n
  obtain ⟨text, htext⟩ := h
  rw [Node.write] at htext
  rw [Node.withKind, Node.Writable, Node.write]
  cases hv : v.write with
  | error f =>
    rw [hv] at htext
    cases htext
  | ok written =>
    rw [hv] at htext
    cases hns : Node.writeAll ns with
    | error f =>
      rw [hns] at htext
      cases htext
    | ok texts => exact ⟨_, rfl⟩

lemma writable_defined (h : ∀ n ∈ ns, n.Writable) : ∀ n ∈ defined ns, n.Writable := by
  rcases ns with _ | ⟨x, _ | ⟨e, _ | ⟨_, _⟩⟩⟩
  · exact h
  · exact h
  · obtain ⟨hx, he⟩ := forall_mem_cons.mp h
    refine forall_mem_cons.mpr ⟨?_, he⟩
    split
    · exact writable_withKind hx _
    · exact hx
  · exact h

lemma writable_phrase {parts : List Phrase} (h : ∀ p ∈ parts, p.Writable) (name : Symbol) (d : Desk) :
    (phrase name parts d).1.Writable := by
  have hnodes : ∀ n ∈ parts.filterMap Phrase.node?, n.Writable := by
    intro n hn
    obtain ⟨p, hp, hnode⟩ := mem_filterMap.mp hn
    cases p with
    | nothing => cases hnode
    | text s => cases hnode
    | node m =>
      obtain rfl := Option.some.inj hnode
      exact h _ hp
  unfold phrase
  cases kind? name parts with
  | some k =>
    refine writable_mk k d.nextId ⟨_, rfl⟩ ?_
    split
    · exact writable_defined hnodes
    · exact hnodes
  | none =>
    cases parts with
    | nil => exact ⟨_, rfl⟩
    | cons p parts => exact h p mem_cons_self

lemma writable_word {w : List Char} (hw : isNumeral w = true → digitCount w ≤ Text.digitLimit) {p : Phrase}
    (h : Word w p) : p.Writable := by
  obtain ⟨q, d, rfl⟩ := h
  unfold Lexeme.token
  cases hc : content w with
  | none => exact ⟨_, rfl⟩
  | some kv =>
    refine writable_mk kv.1 d.nextId ?_ (forall_mem_nil _)
    unfold content at hc
    split at hc
    · rename_i hnum
      obtain rfl := Option.some.inj hc
      have hshort := hw hnum
      rw [← numeral_integer hnum, digitCount_numeral_le] at hshort
      simp only [Value.write, hshort]
      exact ⟨_, rfl⟩
    · split at hc
      · obtain rfl := Option.some.inj hc
        exact ⟨_, rfl⟩
      · split at hc
        · obtain rfl := Option.some.inj hc
          exact ⟨_, rfl⟩
        · cases hc

end Writable

section Transparent

variable {limits : Limits} {out : String}

lemma Before.short {r : Reading} {ws : List (List Char)} (h : Before limits out r (some ws)) :
    ∀ w ∈ ws, isNumeral w = true → digitCount w ≤ Text.digitLimit := by
  generalize hf : some ws = f at h
  cases h with
  | atEnd => cases hf
  | pieces _ _ _ hshort _ _ =>
    obtain rfl := Option.some.inj hf
    exact hshort

lemma getD_arguments {args args' : List LispSymbol}
    (h : List.Forall₂ (Parser.Kin (fun p p' => p' = p ∧ p.Writable) false) args args') :
    (args'.map fun a => a.value.getD .nothing) = (args.map fun a => a.value.getD .nothing) ∧
      ∀ p ∈ args.map (fun a => a.value.getD .nothing), p.Writable := by
  induction h with
  | nil => exact ⟨rfl, forall_mem_nil _⟩
  | cons hx _ ih =>
    obtain ⟨hsame, hwritable⟩ := hx.getD .nothing .nothing
    exact ⟨by rw [map_cons, map_cons, ih.1, hsame], forall_mem_cons.mpr ⟨hwritable, ih.2⟩⟩

def transparent (limits : Limits) (out : String) (hd : 0 < limits.depth) (m : Parser.Mode) :
    Parser.Shadow (host limits) (host limits) m where
  Near r r' := r' = r ∧ ∃ f, Before limits out r f
  Like p p' := p' = p ∧ p.Writable
  Open r := ∃ ws, Before limits out r (some ws)
  Fatal _ := False
  Cut _ := False
  Stop _ := False
  nothing := ⟨rfl, _, rfl⟩
  display _ _ _ h := h.1 ▸ Parser.exists_ok_map _ h.2
  ofToken hx := hx.getD _ _
  next := by
    rintro r _ ⟨ws, h⟩ ⟨rfl, -⟩
    cases ws with
    | nil =>
      obtain ⟨r', hnext, h', -⟩ := (surroundings limits out hd).done h
      exact .inl ⟨_, _, _, _, hnext, hnext, .none, rfl, _, h'⟩
    | cons w ws =>
      obtain ⟨t, r', hnext, -, hword, h', -⟩ := nextToken_cons hd h
      have hwritable := writable_word (Before.short h _ mem_cons_self) hword
      exact .inl ⟨_, _, _, _, hnext, hnext,
        .some (.token ⟨rfl, ⟨_, _, rfl, rfl, rfl, hwritable⟩, fun _ => ⟨⟨_, rfl⟩, _, rfl⟩⟩), rfl, _, h'⟩
  rule := by
    rintro s s' r ⟨rfl, f, h⟩
    refine ⟨_, _, rfl, fun r' hproduction hargs => ?_⟩
    obtain ⟨hparts, hwritable⟩ := getD_arguments hargs
    obtain ⟨_, _, happly, -, h', -⟩ := (surroundings limits out hd).rule r h
    refine ⟨_, _, rfl, ⟨?_, writable_phrase hwritable _ _⟩, ?_, f, (Prod.mk.inj happly).2 ▸ h'⟩
    · rw [hproduction, hparts]
    · rw [hproduction, hparts]
  complain := by
    refine ⟨onError, onError, rfl, rfl, ?_, ?_⟩
    · rintro x x' r _ - ⟨rfl, f, h⟩
      exact ⟨_, _, onError_ok _ h.verbose, onError_ok _ h.verbose, rfl, f, h.desk _ false⟩
    · rintro r _ ⟨rfl, f, h⟩
      exact ⟨_, onError_ok _ h.verbose, .inl ⟨_, onError_ok _ h.verbose, rfl, f, h.desk _ false⟩⟩

end Transparent

section Values

lemma exists_yields : ∀ d : Derivation, ∃ p, Yields d p
  | .leaf w => by
    refine ⟨(Lexeme.token w 0 {}).1.value.bare, yields_leaf ?_⟩
    rintro _ ⟨q, d, rfl⟩
    unfold Lexeme.token
    cases content w with
    | none => rfl
    | some kv => simp only [Desk.node, Phrase.bare, bare_mk]
  | .node name ds => by
    have hall : ∀ d ∈ ds, ∃ p, Yields d p := fun d _ => exists_yields d
    have : Nonempty Phrase := ⟨.nothing⟩
    choose! f hf using hall
    have hps : List.Forall₂ Yields ds (ds.map f) := forall₂_map_right_iff.mpr (forall₂_same.mpr hf)
    exact ⟨_, yields_node hps⟩

lemma bare_eq {o : Option Derivation} {v v' : Option Phrase} (h : Option.Rel (Denotes Word Acts) o v)
    (h' : Option.Rel (Denotes Word Acts) o v') : v.map Phrase.bare = v'.map Phrase.bare := by
  cases h with
  | none =>
    cases h'
    rfl
  | @some d p hd =>
    cases h' with
    | some hd' =>
      obtain ⟨q, hq⟩ := exists_yields d
      rw [Option.map_some, Option.map_some, hq _ hd, hq _ hd']

end Values

section Read

variable {source : String} {limits : Limits} {d : Desk} {t : Parser.Tables Symbol}

lemma read_steady (ht : Parser.Steady t grammar whole automaton .program)
    (hsteps : 14 * source.length + 4 ≤ limits.steps) (hdepth : 0 < limits.depth)
    (hshort : ShortNumerals (pieces source.toList)) (hd : d.verbose = false) :
    ∃ v c, read limits t {} scanner d source = .finished v c := by
  have hbefore := before_source (by omega : source.length < limits.steps) hshort hd
  obtain ⟨v, c, hread, -⟩ := Parser.parse_finishes (Q := surroundings limits _ hdepth) ht weights hbefore
    (steps_enough hsteps)
  exact ⟨v, c, hread⟩

lemma read_mode (ht : Parser.Steady t grammar whole automaton .program)
    (hsteps : 14 * source.length + 4 ≤ limits.steps) (hdepth : 0 < limits.depth)
    (hshort : ShortNumerals (pieces source.toList)) (hd : d.verbose = false) {v : Option Phrase}
    {c : Parser.Config Symbol Phrase Reading} (hread : read limits t {} scanner d source = .finished v c)
    (m : Parser.Mode) : ∃ c', read limits t m scanner d source = .finished v c' ∧ c'.host = c.host := by
  have hbefore := before_source (by omega : source.length < limits.steps) hshort hd
  obtain ⟨v', c', hread', hv, hhost, -⟩ := Parser.parse_mode (Q := surroundings limits _ hdepth)
    (transparent limits _ hdepth m) ht (fun h => ⟨_, h⟩) (fun _ h => h) (fun _ h => h) hbefore ⟨rfl, _, hbefore⟩ hread
  obtain rfl : v' = v := by
    cases hv with
    | none => rfl
    | some h => rw [h.1]
  exact ⟨c', hread', hhost⟩

end Read

/-- With and without reductions before the next token, with and without places and with and without a trace, a source
is read to its end, found valid or not and made the same tree, up to the numbers of nodes. -/
theorem read_modes_agree (source : String) (limits : Limits) (d : Desk) (hd : d.verbose = false)
    (hsteps : 14 * source.length + 4 ≤ limits.steps) (hdepth : 0 < limits.depth)
    (hshort : ShortNumerals (pieces source.toList)) :
    ∃ (valid : Bool) (value : Option Phrase), ∀ t ∈ [tables, tables.withoutDefaults], ∀ m : Parser.Mode, ∃ v c,
      read limits t m scanner d source = .finished v c ∧ c.host.desk.valid = valid ∧ v.map Phrase.bare = value := by
  have hstart : Symbol.program ∉ grammar.nullable := by
    rw [grammar_nullable]
    decide
  have hsteady := tables_steady.withoutDefaults
  obtain ⟨v, c, hread⟩ := read_steady tables_steady hsteps hdepth hshort hd
  obtain ⟨v', c', hread'⟩ := read_steady hsteady hsteps hdepth hshort hd
  obtain ⟨hclean, o, hrel, hrel'⟩ := Parser.parse_defaults (Q := surroundings limits _ hdepth) tables_steady hstart
    (before_source (by omega : source.length < limits.steps) hshort hd) hread hread'
  refine ⟨c.host.desk.valid, v.map Phrase.bare, ?_⟩
  intro t ht m
  rcases mem_pair.mp ht with ht | ht
  · obtain ⟨c₁, hread₁, hhost⟩ := read_mode tables_steady hsteps hdepth hshort hd hread m
    rw [ht]
    exact ⟨v, c₁, hread₁, by rw [hhost], rfl⟩
  · obtain ⟨c₁, hread₁, hhost⟩ := read_mode hsteady hsteps hdepth hshort hd hread' m
    rw [ht]
    refine ⟨v', c₁, hread₁, ?_, bare_eq hrel' hrel⟩
    rw [hhost]
    exact hclean.symm

theorem read_modes_agree_malformed :
    ∃ (valid : Bool) (value : Option Phrase), ∀ t ∈ [tables, tables.withoutDefaults], ∀ m : Parser.Mode, ∃ v c,
      read ⟨200, 1⟩ t m scanner {} "(+ 7) @(if" = .finished v c ∧ c.host.desk.valid = valid ∧
        v.map Phrase.bare = value := by
  have hp : pieces "(+ 7) @(if".toList = [.lexeme ['('], .lexeme ['+'], .blank ' ', .lexeme ['7'], .lexeme [')'],
      .blank ' ', .illegal '@', .lexeme ['('], .lexeme ['i', 'f']] := by
    cbv
  have hs : ShortNumerals (pieces "(+ 7) @(if".toList) := by
    rw [hp]
    decide
  exact read_modes_agree "(+ 7) @(if" ⟨200, 1⟩ {} rfl (by decide) (by decide) hs

end LispKit.Lisp
