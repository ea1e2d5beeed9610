import LispKit.Proofs.Lisp.Meaning

/-! Reading programs: the parser's surroundings never fail, and what is read of a program is its tree. -/

namespace LispKit.Lisp

open Lexeme Reading ParseTree Lisp.Derivation List

section Bare

mutual

def Node.bare : Node → Node
  | .mk k v _ cs => .mk k v 0 (Node.bareAll cs)

def Node.bareAll : List Node → List Node
  | [] => []
  | n :: ns => n.bare :: Node.bareAll ns

end

namespace Node

lemma bareAll_eq (ns : List Node) : bareAll ns = ns.map bare := by
  induction ns with
  | nil => rfl
  | cons n ns ih => rw [bareAll, ih, map_cons]

@[simp] lemma bare_mk (k : Kind) (v : Value) (i : Int) (cs : List Node) :
    (mk k v i cs).bare = mk k v 0 (cs.map bare) := by
  rw [bare, bareAll_eq]

@[simp] lemma kind_bare (n : Node) : n.bare.kind = n.kind := by
  cases n
  rw [bare_mk]
  rfl

@[simp] lemma value_bare (n : Node) : n.bare.value = n.value := by
  cases n
  rw [bare_mk]
  rfl

@[simp] lemma children_bare (n : Node) : n.bare.children = n.children.map bare := by
  cases n
  rw [bare_mk]
  rfl

lemma bare_bare : ∀ n : Node, n.bare.bare = n.bare
  | mk k v i cs => by
    have hcs : (cs.map bare).map bare = cs.map bare := by
      rw [List.map_map]
      exact map_congr_left fun c _ => bare_bare c
    rw [bare_mk, bare_mk, hcs]

end Node

def Phrase.bare : Phrase → Phrase
  | .node n => .node n.bare
  | p => p

lemma Phrase.bare_eq_node {p : Phrase} {m : Node} (h : p.bare = .node m) : ∃ n, p = .node n ∧ n.bare = m := by
  cases p with
  | nothing => cases h
  | text s => cases h
  | node n => exact ⟨n, rfl, Phrase.node.inj h⟩

@[simp] lemma Phrase.node?_bare (p : Phrase) : p.bare.node? = p.node?.map Node.bare := by
  cases p <;> rfl

lemma filterMap_bare (ps : List Phrase) :
    (ps.map Phrase.bare).filterMap Phrase.node? = (ps.filterMap Phrase.node?).map Node.bare := by
  rw [map_filterMap, filterMap_map]
  congr
  funext p
  exact Phrase.node?_bare p

lemma wordOf_bare (ps : List Phrase) : wordOf (ps.map Phrase.bare) = wordOf ps := by
  rcases ps with _ | ⟨_, _ | ⟨_ | _ | _, _⟩⟩ <;> rfl

lemma kind?_bare (name : Symbol) (ps : List Phrase) : kind? name (ps.map Phrase.bare) = kind? name ps := by
  have hhead : ((ps.map Phrase.bare).filterMap Phrase.node?).head?.map Node.kind =
      (ps.filterMap Phrase.node?).head?.map Node.kind := by
    rw [filterMap_bare, head?_map, Option.map_map]
    congr
    funext n
    exact Node.kind_bare n
  simp only [kind?, hhead, wordOf_bare, length_map]

lemma defined_bare (ns : List Node) : (defined ns).map Node.bare = defined (ns.map Node.bare) := by
  rcases ns with _ | ⟨x, _ | ⟨e, _ | ⟨_, _⟩⟩⟩
  · rfl
  · rfl
  · cases x
    simp only [defined, map_cons, map_nil, Node.kind_bare]
    split
    · simp [Node.withKind]
    · rfl
  · rfl

lemma phrase_bare (name : Symbol) (ps : List Phrase) (d : Desk) :
    (phrase name ps d).1.bare = (phrase name (ps.map Phrase.bare) {}).1 := by
  unfold phrase
  rw [kind?_bare, filterMap_bare]
  cases kind? name ps with
  | none =>
    dsimp only
    rw [head?_map]
    cases ps.head? <;> rfl
  | some k =>
    dsimp only
    rw [← defined_bare, ← apply_ite (List.map Node.bare)]
    exact congrArg Phrase.node (Node.bare_mk _ _ _ _)

end Bare

section Pieces

def reported : String → List Piece → String
  | out, [] => out
  | out, .illegal c :: ps => reported (Desk.report { out := out } c).out ps
  | out, _ :: ps => reported out ps

structure Skips (d : Desk) (ps : List Piece) (d' : Desk) (ps' : List Piece) : Prop where
  valid : d'.valid = d.valid
  verbose : d'.verbose = d.verbose
  out : reported d'.out ps' = reported d.out ps

variable {ps ps' : List Piece}

lemma Skips.blank {d d' : Desk} (h : Skips d ps d' ps') (c : Char) :
    Skips d (.blank c :: ps) d' ps' :=
  ⟨h.valid, h.verbose, h.out⟩

lemma Skips.illegal {d d' : Desk} {c : Char} (h : Skips (d.report c) ps d' ps') :
    Skips d (.illegal c :: ps) d' ps' :=
  ⟨h.valid, h.verbose, h.out⟩

lemma token_desk (w : List Char) (p : Nat) (d : Desk) : ∃ i, (Lexeme.token w p d).2 = { d with nextId := i } := by
  unfold Lexeme.token
  split
  · exact ⟨_, rfl⟩
  · exact ⟨d.nextId, rfl⟩

lemma nextOf_nil (h : lexemes ps = []) (p : Nat) (d : Desk) :
    ∃ d' p', nextOf p d ps = (none, d', p', []) ∧ Skips d ps d' [] := by
  induction ps generalizing p d with
  | nil => exact ⟨d, p + 1, rfl, rfl, rfl, rfl⟩
  | cons x ps ih =>
    cases x with
    | blank c =>
      obtain ⟨d', p', hnext, hpass⟩ := ih h (p + 1) d
      exact ⟨d', p', hnext, hpass.blank c⟩
    | illegal c =>
      obtain ⟨d', p', hnext, hpass⟩ := ih h (p + 1) (d.report c)
      exact ⟨d', p', hnext, hpass.illegal⟩
    | lexeme w => cases h

lemma nextOf_cons {w : List Char} {ws : List (List Char)} (h : lexemes ps = w :: ws) (p : Nat) (d : Desk) :
    ∃ q d₀ d' p' ps', nextOf p d ps = (some (Lexeme.token w q d₀).1, d', p', ps') ∧ lexemes ps' = ws ∧
      Skips d ps d' ps' := by
  induction ps generalizing p d with
  | nil => cases h
  | cons x ps ih =>
    cases x with
    | blank c =>
      obtain ⟨q, d₀, d', p', ps', hnext, hws, hpass⟩ := ih h (p + 1) d
      exact ⟨q, d₀, d', p', ps', hnext, hws, hpass.blank c⟩
    | illegal c =>
      obtain ⟨q, d₀, d', p', ps', hnext, hws, hpass⟩ := ih h (p + 1) (d.report c)
      exact ⟨q, d₀, d', p', ps', hnext, hws, hpass.illegal⟩
    | lexeme v =>
      obtain ⟨rfl, hws⟩ := List.cons.inj h
      obtain ⟨i, hi⟩ := token_desk v p d
      refine ⟨p, d, _, _, ps, rfl, hws, ?_⟩
      rw [hi]
      exact ⟨rfl, rfl, rfl⟩

end Pieces

section Surroundings

variable {limits : Limits} {out : String} {r s : Reading} {f : Option (List (List Char))}

def Word (w : List Char) (p : Phrase) : Prop :=
  ∃ q d, (Lexeme.token w q d).1.value = p

def Acts (name : Symbol) (parts : List Phrase) (p : Phrase) : Prop :=
  ∃ d, (phrase name parts d).1 = p

inductive Before (limits : Limits) (out : String) : Reading → Option (List (List Char)) → Prop
  | pieces {sc : LispScanner} {source s : List Char} {p : Nat} {d : Desk} : Lexical sc → source.drop p = s →
      s.length < limits.steps → ShortNumerals (pieces s) → d.verbose = false → reported d.out (pieces s) = out →
      Before limits out ⟨placed sc source p, d⟩ (some (lexemes (pieces s)))
  | atEnd {r : Reading} : r.desk.verbose = false → r.desk.out = out → Before limits out r none

lemma nextToken_cons (hd : 0 < limits.depth) {w : List Char} {ws : List (List Char)}
    (h : Before limits out r (some (w :: ws))) : ∃ (t : LispToken) (r' : Reading),
      nextToken limits r = (.ok (some (ofToken t)), r') ∧ t.type = type w ∧ Word w t.value ∧ Before limits out r' (some ws) ∧
      r'.desk.valid = r.desk.valid := by
  generalize hf : some (w :: ws) = f at h
  cases h with
  | atEnd => cases hf
  | @pieces sc source s p d hsc hs hlen hshort hverbose hout =>
    obtain ⟨q, d₀, d', p', ps', hnext, hws, hpass⟩ := nextOf_cons (Option.some.inj hf).symm p d
    obtain ⟨s', hs', rfl, hlt⟩ := nextOf_some hs hnext
    refine ⟨(Lexeme.token w q d₀).1, ⟨placed sc source p', d'⟩, ?_, type_token w q d₀, ⟨q, d₀, rfl⟩, ?_, hpass.valid⟩
    · rw [nextToken, token_placed hsc hs hlen hd hshort.head, hnext]
      rfl
    · rw [← hws]
      exact .pieces hsc hs' (hlt.trans hlen) (short_nextOf hshort hnext) (hpass.verbose.trans hverbose) (hpass.out.trans hout)

lemma nextToken_nil (hd : 0 < limits.depth) (h : Before limits out r (some [])) :
    ∃ r', nextToken limits r = (.ok none, r') ∧ Before limits out r' none ∧ r'.desk.valid = r.desk.valid := by
  generalize hf : some [] = f at h
  cases h with
  | atEnd => cases hf
  | @pieces sc source s p d hsc hs hlen hshort hverbose hout =>
    obtain ⟨d', p', hnext, hpass⟩ := nextOf_nil (Option.some.inj hf).symm p d
    refine ⟨⟨placed sc source p', d'⟩, ?_, ?_, hpass.valid⟩
    · rw [nextToken, token_placed hsc hs hlen hd hshort.head, hnext]
      rfl
    · exact .atEnd (hpass.verbose.trans hverbose) (hpass.out.trans hout)

lemma Before.verbose (h : Before limits out r f) : r.desk.verbose = false := by
  cases h with
  | pieces _ _ _ _ hverbose _ => exact hverbose
  | atEnd hverbose _ => exact hverbose

lemma Before.out_eq (h : Before limits out r none) : r.desk.out = out := by
  generalize hf : none = f at h
  cases h with
  | pieces => cases hf
  | atEnd _ hout => exact hout

lemma Before.desk (h : Before limits out r f) (i : Int) (valid : Bool) :
    Before limits out { r with desk := { r.desk with nextId := i, valid := valid } } f := by
  cases h with
  | pieces hsc hs hlen hshort hverbose hout => exact .pieces hsc hs hlen hshort hverbose hout
  | atEnd hverbose hout => exact .atEnd hverbose hout

lemma phrase_desk (name : Symbol) (parts : List Phrase) {d : Desk} (hd : d.verbose = false) :
    ∃ i, (phrase name parts d).2 = { d with nextId := i } := by
  unfold phrase
  cases kind? name parts with
  | none =>
    refine ⟨d.nextId, ?_⟩
    dsimp only
    rw [hd, Bool.and_false, if_neg Bool.false_ne_true, ← hd]
  | some k => exact ⟨_, rfl⟩

lemma symbol_plain (w : List Char) : symbol w ≠ .endOfInput ∧ symbol w ≠ .error := by
  have hall : ∀ s ∈ Symbol.terminals, s ≠ .endOfInput ∧ s ≠ .error := by decide
  unfold symbol Symbol.ofTokenType
  cases hf : Symbol.terminals.find? fun s => s.name = type w with
  | none => exact ⟨by simp, by simp⟩
  | some s => exact hall s (mem_of_find?_eq_some hf)

lemma apply_done (r : Parser.Reduction Symbol Phrase) (hv : s.desk.verbose = false) :
    ∃ p i, apply r s = (.done { r.symbol with value := some p } false, { s with desk := { s.desk with nextId := i } }) ∧
      ∃ d, (phrase r.production.name (r.arguments.map fun a => a.value.getD .nothing) d).1 = p := by
  obtain ⟨i, hi⟩ := phrase_desk r.production.name (r.arguments.map fun a => a.value.getD .nothing) hv
  refine ⟨_, i, ?_, s.desk, rfl⟩
  rw [← hi]
  rfl

lemma onError_ok (offending : Option LispSymbol) (hv : s.desk.verbose = false) :
    onError offending s = (.ok {}, { s with desk := { s.desk with valid := false } }) := by
  simp only [onError, hv, Bool.false_eq_true, if_false]

def surroundings (limits : Limits) (out : String) (hd : 0 < limits.depth) : Parser.Quiet (host limits) (List Char) where
  type := symbol
  Feed := Before limits out
  clean r := r.desk.valid
  Reads := Word
  Acts := Acts
  plain := symbol_plain
  next h := by
    obtain ⟨t, r', hnext, htype, hword, hbefore, hvalid⟩ := nextToken_cons hd h
    refine ⟨_, t.value, r', hnext, ?_, rfl, hword, hbefore, hvalid⟩
    rw [symbol, ← htype]
    rfl
  done h := nextToken_nil hd h
  rule r h := by
    obtain ⟨p, i, happly, hacts⟩ := apply_done r h.verbose
    exact ⟨p, _, happly, hacts, h.desk i _, rfl⟩
  complain := ⟨onError, rfl, fun h => ⟨_, onError_ok _ h.verbose, h.desk _ false, rfl⟩⟩

end Surroundings

section Values

def Yields (d : Derivation) (p : Phrase) : Prop :=
  ∀ v, d.Denotes Word Acts v → v.bare = p

lemma yields_leaf {w : List Char} {p : Phrase} (h : ∀ v, Word w v → v.bare = p) : Yields (.leaf w) p := by
  intro v hv
  cases hv with
  | leaf hw => exact h v hw

variable {ds : List Derivation} {d : Derivation} {ns : List Node} {n : Node}

lemma yields_node {name : Symbol} {ps : List Phrase} (h : List.Forall₂ Yields ds ps) :
    Yields (.node name ds) (phrase name ps {}).1 := by
  intro v hv
  cases hv with
  | node hvs hacts =>
    rename_i vs
    have hps : vs.map Phrase.bare = ps := by
      clear hacts
      induction h generalizing vs with
      | nil =>
        cases hvs
        rfl
      | cons hd _ ih =>
        cases hvs with
        | cons hv hvs => rw [map_cons, hd _ hv, ih hvs]
    obtain ⟨d, rfl⟩ := hacts
    rw [phrase_bare, hps]

lemma yields_content {w : List Char} {k : Kind} {v : Value} (h : content w = some (k, v)) :
    Yields (.leaf w) (.node (.mk k v 0 [])) := by
  refine yields_leaf ?_
  rintro _ ⟨q, d, rfl⟩
  simp only [Lexeme.token, h, Desk.node, Phrase.bare, Node.bare_mk, map_nil]

lemma yields_mark {s : Symbol} (h : s ∈ Symbol.fixed) : Yields (mark s) (.text (String.ofList s.spelling)) := by
  have hall : ∀ s ∈ Symbol.fixed, content s.spelling = none := by decide +kernel
  refine yields_leaf ?_
  rintro _ ⟨q, d, rfl⟩
  simp only [Lexeme.token, hall s h, Phrase.bare]

lemma Name.content_word (x : Name) : content x.word = some (.identifier, .text x.text) := by
  have hs := x.symbol_word
  have hn : isNumeral x.word = false := by
    by_contra hn
    rw [symbol_numeral (by simpa using hn)] at hs
    cases hs
  have ht : isTruth x.word = false := by
    by_contra ht
    have hw := x.isWord
    rcases isTruth_iff.mp (by simpa using ht) with h | h
    · rw [h] at hw
      cases hw
    · rw [h] at hw
      cases hw
  rw [content, hn, ht, x.isWord, x.unreserved]
  rfl

lemma content_numeral (n : Int) : content (numeral n) = some (.number, .int n) := by
  rw [content, if_pos (isNumeral_numeral n), integer_numeral]

lemma content_truth (b : Bool) : content ['#', if b then 't' else 'f'] = some (.bool, .bool b) := by
  cases b <;> rfl

lemma yields_reference (x : Name) : Yields (Derivation.reference x) (.node (.reference x.text)) :=
  yields_node (.cons (yields_content x.content_word) .nil)

lemma yields_empty : Yields (.node .empty []) .nothing :=
  yields_node .nil

lemma yields_references (xs : List Name) : Yields (references xs) (.node (.parameterList (xs.map Name.text))) := by
  induction xs with
  | nil => exact yields_node (.cons yields_empty .nil)
  | cons x xs ih => exact yields_node (.cons (yields_reference x) (.cons ih .nil))

lemma yields_open : Yields (mark .open_) (.text "(") :=
  yields_mark (by decide)

lemma yields_close : Yields (mark .close) (.text ")") :=
  yields_mark (by decide)

lemma yields_function (xs : List Name) (h : Yields d (.node n)) :
    Yields (Derivation.function xs d) (.node (.function (xs.map Name.text) n)) := by
  have hxs : Yields (.node .parameters [mark .open_, references xs, mark .close])
      (.node (.branch .parameters [.parameterList (xs.map Name.text)])) :=
    yields_node (.cons yields_open (.cons (yields_references xs) (.cons yields_close .nil)))
  have hbody : Yields (.node .body [d]) (.node (.branch .body [n])) := yields_node (.cons h .nil)
  exact yields_node (.cons yields_open (.cons (yields_mark (by decide)) (.cons hxs (.cons hbody (.cons yields_close .nil)))))

lemma yields_operands (h : Yields d (.node n))
    (hs : List.Forall₂ (fun d n => Yields d (.node n)) ds ns) : Yields (operands d ds) (.node (.operands n ns)) := by
  induction hs generalizing d n with
  | nil => exact yields_node (.cons h .nil)
  | cons hd _ ih => exact yields_node (.cons h (.cons (ih hd) .nil))

lemma yields_arguments
    (hs : List.Forall₂ (fun d n => Yields d (.node n)) ds ns) : Yields (arguments ds) (.node (.arguments ns)) := by
  induction hs with
  | nil => exact yields_node (.cons yields_empty .nil)
  | cons hd _ ih =>
    have harg : Yields (.node .argument [_]) (.node (.branch .argument [_])) := yields_node (.cons hd .nil)
    exact yields_node (.cons harg (.cons ih .nil))

lemma yields_derivations {es : List Expression} (h : ∀ e ∈ es, Yields e.derivation (.node e.node)) :
    List.Forall₂ (fun d n => Yields d (.node n)) (Expression.derivations es) (Expression.nodes es) := by
  rw [Expression.derivations_eq, Expression.nodes_eq, forall₂_map_left_iff, forall₂_map_right_iff,
    forall₂_same]
  exact h

lemma yields_operation {b : Binary} {e : Derivation} {m : Node} (h : Yields d (.node m)) (h' : Yields e (.node n)) :
    Yields (.node .expression [.node b.group [mark .open_, mark b.symbol, d, e, mark .close]])
      (.node (.branch (.binary b) [m, n])) := by
  have hb := yields_mark b.symbol_mem_fixed
  have hop : Yields (.node b.group [mark .open_, mark b.symbol, d, e, mark .close]) (.node (.branch (.binary b) [m, n])) := by
    cases b <;> exact yields_node (.cons yields_open (.cons hb (.cons h (.cons h' (.cons yields_close .nil)))))
  exact yields_node (.cons hop .nil)

lemma Expression.yields_derivation (e : Expression) : Yields e.derivation (.node e.node) := by
  induction e using Expression.induct with
  | number n => exact yields_node (.cons (yields_content (content_numeral _)) .nil)
  | truth b => exact yields_node (.cons (yields_content (content_truth b)) .nil)
  | name x => exact yields_node (.cons (yields_reference x) .nil)
  | chain b h x y zs hx hy hzs => exact yields_operation hx (yields_operands hy (yields_derivations hzs))
  | pair b h x y hx hy => exact yields_operation hx hy
  | not x hx =>
    have hnot : Yields (.node .logicalOperation [mark .open_, mark .not, x.derivation, mark .close])
        (.node (.branch .negation [x.node])) :=
      yields_node (.cons yields_open (.cons (yields_mark (by decide)) (.cons hx (.cons yields_close .nil))))
    exact yields_node (.cons hnot .nil)
  | function xs e he => exact yields_node (.cons (yields_function xs he) .nil)
  | apply xs e as he has =>
    have hcall : Yields (.node .call [mark .open_, Derivation.function xs e.derivation, arguments (derivations as), mark .close])
        (.node (.branch .callAnonymous [.function (xs.map Name.text) e.node, .arguments (nodes as)])) :=
      yields_node (.cons yields_open (.cons (yields_function xs he)
        (.cons (yields_arguments (yields_derivations has)) (.cons yields_close .nil))))
    exact yields_node (.cons hcall .nil)
  | call f as has =>
    have hf : Yields (.node .functionName [.leaf f.word]) (.node (.branch .functionName [.identifier f.text])) :=
      yields_node (.cons (yields_content f.content_word) .nil)
    have hcall : Yields (.node .call [mark .open_, .node .functionName [.leaf f.word], arguments (derivations as), mark .close])
        (.node (.call f.text (nodes as))) :=
      yields_node (.cons yields_open (.cons hf (.cons (yields_arguments (yields_derivations has)) (.cons yields_close .nil))))
    exact yields_node (.cons hcall .nil)
  | conditional x y z hx hy hz =>
    have htest : Yields (.node .test [x.derivation]) (.node (.branch .test [x.node])) := yields_node (.cons hx .nil)
    have hthen : Yields (.node .consequence [y.derivation]) (.node (.branch .consequence [y.node])) :=
      yields_node (.cons hy .nil)
    have helse : Yields (.node .alternative [z.derivation]) (.node (.branch .alternative [z.node])) :=
      yields_node (.cons hz .nil)
    have hif : Yields (.node .conditional [mark .open_, mark .if_, .node .test [x.derivation],
        .node .consequence [y.derivation], .node .alternative [z.derivation], mark .close])
        (.node (.branch .conditional [.branch .test [x.node], .branch .consequence [y.node], .branch .alternative [z.node]])) :=
      yields_node (.cons yields_open (.cons (yields_mark (by decide)) (.cons htest (.cons hthen (.cons helse
        (.cons yields_close .nil))))))
    exact yields_node (.cons hif .nil)

lemma Statement.yields_derivation (s : Statement) : Yields s.derivation (.node s.node) := by
  cases s with
  | expression e => exact yields_node (.cons e.yields_derivation .nil)
  | printNumber e =>
    have hprint : Yields (.node .printStatement [mark .open_, mark .printNumber, e.derivation, mark .close])
        (.node (.branch .printNumber [e.node])) :=
      yields_node (.cons yields_open (.cons (yields_mark (by decide)) (.cons e.yields_derivation (.cons yields_close .nil))))
    exact yields_node (.cons hprint .nil)
  | printBool e =>
    have hprint : Yields (.node .printStatement [mark .open_, mark .printBool, e.derivation, mark .close])
        (.node (.branch .printBool [e.node])) :=
      yields_node (.cons yields_open (.cons (yields_mark (by decide)) (.cons e.yields_derivation (.cons yields_close .nil))))
    exact yields_node (.cons hprint .nil)
  | define x e =>
    have hdefine : Yields (.node .definition [mark .open_, mark .define, reference x, e.derivation, mark .close])
        (.node (Statement.define x e).node) := by
      have h : Yields (.node .definition [mark .open_, mark .define, reference x, e.derivation, mark .close]) _ :=
        yields_node (.cons yields_open (.cons (yields_mark (by decide)) (.cons (yields_reference x)
          (.cons e.yields_derivation (.cons yields_close .nil)))))
      cases e <;> exact h
    exact yields_node (.cons hdefine .nil)

lemma yields_statements (s : Statement) (ts : List Statement) :
    Yields (Derivation.statements s ts) (.node (.program s.node (ts.map Statement.node))) := by
  induction ts generalizing s with
  | nil => exact yields_node (.cons s.yields_derivation .nil)
  | cons t ts ih => exact yields_node (.cons s.yields_derivation (.cons (ih t) .nil))

lemma Program.yields_derivation (p : Program) : Yields p.derivation (.node p.node) :=
  yields_node (.cons (yields_statements p.first p.rest) .nil)

end Values

end LispKit.Lisp
