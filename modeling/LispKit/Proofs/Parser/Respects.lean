import LispKit.Proofs.Grammar.Useful
import LispKit.Proofs.Parser.Build
import LispKit.Proofs.Parser.Tables

/-! The tables of a parser that was built do nothing but what the items of the automaton's states ask for, and all of that
if no conflict was reported. -/

namespace LispKit.Parser

open Vocabulary Collection List

variable {S : Type} [DecidableEq S] [Vocabulary S] {g : Grammar S} {p : Production S} {A : Collection S} {start : S}
variable {t : Tables S}

structure Answers (t : Tables S) (g : Grammar S) (p : Production S) (A : Collection S) (start : S) : Prop extends
    Respects t g p A where
  shift : ∀ {q i s}, i ∈ A.itemsOf q → i.next? = some s → g.isTerminal s = true → ∃ r, t.action? q s = some (.shift r)
  reduce : ∀ {q q'} {pr : Production S} {s}, pr ∈ g.productions → pr.dotted 0 ∈ A.itemsOf q →
    A.reach? q pr.symbols = some q' → Lookahead.Follows g A start q pr.name s → t.action? q' s = some (.reduce pr.number)
  accept : ∀ {q}, p.dotted 1 ∈ A.itemsOf q → t.action? q endMark = some .accept

lemma Answers.withoutDefaults (h : Answers t g p A start) : Answers t.withoutDefaults g p A start where
  toRespects := h.toRespects.withoutDefaults
  shift := h.shift
  reduce := h.reduce
  accept := h.accept

omit [DecidableEq S] [Vocabulary S] in
lemma silent_of_row {table : Table S} (hsr : table.shiftReduceConflicts = []) (hrr : table.reduceReduceConflicts = [])
    {q : Nat} {row : TableRow S} (hq : table.rows[q]? = some row) : row.draft.Silent := by
  have hmem : (row, q) ∈ table.rows.zipIdx := mem_zipIdx_iff_getElem?.mpr hq
  exact ⟨map_eq_nil_iff.mp (flatMap_eq_nil_iff.mp hsr _ hmem),
    map_eq_nil_iff.mp (flatMap_eq_nil_iff.mp hrr _ hmem)⟩

theorem answers_ofTable (hr : g.Ready p start) (hs : Lookahead.Sorted g) (hg : g.Flat)
    (h : (Table.build g p).error? = none) (hsr : (Table.build g p).shiftReduceConflicts = [])
    (hrr : (Table.build g p).reduceReduceConflicts = []) (ht : Tables.ofTable g.all (Table.build g p) = .ok t) :
    Answers t g p (Collection.build g p) start := by
  have hc := hr.explored
  have hfinal : ∀ {q}, p.dotted 1 ∈ (Collection.build g p).itemsOf q →
      ∃ rest, (Collection.build g p).itemsOf q = p.dotted 1 :: rest ∧ p.dotted 1 ∉ rest := by
    intro q hi
    obtain ⟨rest, hrest⟩ := hr.final_first hc hi
    exact ⟨rest, hrest, (nodup_cons.mp (hrest ▸ nodup_itemsOf hr.numbered hr.augmented q)).1⟩
  have hasked : Heeded Draft.AreSame t g (Collection.build g p) (Lookahead.compute g (Collection.build g p) start) := by
    refine heeded_ofTable hr h ht fun {q row} hrow => ?_
    obtain ⟨-, -, hd, -⟩ := state_of_row hr h hrow
    exact heeds_same hr hc hd hfinal hg (silent_of_row hsr hrr hrow)
  refine ⟨respects_ofTable hr h ht, fun hi hnext hterm => ?_, fun hpr h0 hreach hfollow => ?_, fun hi => ?_⟩
  · obtain ⟨r, hasks⟩ := exists_asks_shift hc hi hnext hterm
    obtain ⟨b, hb, rfl | ⟨⟨r', rfl⟩, -⟩⟩ := hasked hi hasks
    · exact ⟨r, hb⟩
    · exact ⟨r', hb⟩
  · obtain ⟨b, hb, rfl | ⟨-, k, hk⟩⟩ :=
      hasked (hc.dotted_length_mem h0 hreach) (asks_reduce hr hc hs hpr h0 hreach hfollow)
    · exact hb
    · cases hk
  · obtain ⟨b, hb, rfl | ⟨-, k, hk⟩⟩ := hasked hi (asks_accept hr)
    · exact hb
    · cases hk

section Made

variable {opts : BuildOptions} {b : Built} {p : Production String} {start : String}

lemma Made.respects (h : Made opts b p start) : Respects b.tables b.grammar p (Collection.build b.grammar p) := by
  have hfinished := h.finished
  have htables := h.tables
  rw [h.table] at hfinished htables
  exact respects_ofTable h.ready hfinished htables

lemma Made.answers (h : Made opts b p start) (hprecedence : b.grammar.precedence = {})
    (hapart : ∀ s, b.grammar.isTerminal s = true → b.grammar.isNonterminal s = false)
    (hsr : b.table.shiftReduceConflicts = []) (hrr : b.table.reduceReduceConflicts = []) :
    Answers b.tables b.grammar p (Collection.build b.grammar p) start := by
  have hfinished := h.finished
  have htables := h.tables
  rw [h.table] at hfinished htables hsr hrr
  exact answers_ofTable h.ready (h.ready.sorted hapart) (h.flat hprecedence) hfinished hsr hrr htables

end Made

end LispKit.Parser
