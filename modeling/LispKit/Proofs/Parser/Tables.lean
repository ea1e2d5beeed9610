import LispKit.Parser.Engine
import LispKit.Proofs.Automaton.Row

/-! The tables that a parser runs on: they do nothing but what the items of the automaton's states ask for, whatever
conflicts there were. -/

namespace LispKit.Parser

open Vocabulary Collection List Option

variable {S : Type} [DecidableEq S] [Vocabulary S] {g : Grammar S} {p : Production S} {c : Collection S} {start : S}
variable {t : Tables S}

structure Respects (t : Tables S) (g : Grammar S) (p : Production S) (c : Collection S) : Prop where
  productions : t.productions = g.all
  of_shift : ∀ {q s r}, t.action? q s = some (.shift r) → c.goto? q s = some r ∧ g.isTerminal s = true
  of_reduce : ∀ {q s n}, t.action? q s = some (.reduce n) →
    ∃ pr ∈ g.productions, pr.number = n ∧ pr.dotted pr.symbols.length ∈ c.itemsOf q
  of_accept : ∀ {q s}, t.action? q s = some .accept → s = endMark ∧ p.dotted 1 ∈ c.itemsOf q
  of_default : ∀ {q n}, t.default? q = some n →
    (∃ s, t.action? q s = some (.reduce n)) ∧ ∀ {s a}, t.action? q s = some a → a = .reduce n
  of_goto : ∀ {q s r}, t.goto? q s = some r → c.goto? q s = some r
  goto : ∀ {q s r}, c.goto? q s = some r → g.isNonterminal s = true → t.goto? q s = some r

lemma Respects.withoutDefaults (h : Respects t g p c) : Respects t.withoutDefaults g p c where
  productions := h.productions
  of_shift := h.of_shift
  of_reduce := h.of_reduce
  of_accept := h.of_accept
  of_default hd := by cases hd
  of_goto := h.of_goto
  goto := h.goto

structure Serves (t : Tables S) (g : Grammar S) (p : Production S) (c : Collection S) (start : S) : Prop extends
    Respects t g p c where
  expected : ∀ {q s a}, t.action? q s = some a → Lookahead.Expected c s
  shift : ∀ {q i s}, i ∈ c.itemsOf q → i.next? = some s → g.isTerminal s = true → ∃ r, t.action? q s = some (.shift r)
  reduce : ∀ {q q'} {pr : Production S} {s}, pr ∈ g.productions → pr.dotted 0 ∈ c.itemsOf q' →
    c.reach? q' pr.symbols = some q → Lookahead.Follows g c start q' pr.name s →
    ∃ a, t.action? q s = some a ∧ Draft.Beats g a (.reduce pr.number)
  accept : ∀ {q}, p.dotted 1 ∈ c.itemsOf q → t.action? q endMark = some .accept

lemma Serves.action?_eq_reduce (h : Serves t g p c start) {q q' : Nat} {pr : Production S} {s : S} (hpr : pr ∈ g.productions)
    (h0 : pr.dotted 0 ∈ c.itemsOf q') (hreach : c.reach? q' pr.symbols = some q)
    (hfollow : Lookahead.Follows g c start q' pr.name s) (hshift : c.goto? q s = none)
    (hreduce : ∀ rival ∈ g.productions, rival.dotted rival.symbols.length ∈ c.itemsOf q →
      Draft.productionLine g rival.number ≤ Draft.productionLine g pr.number → rival.number = pr.number) :
    t.action? q s = some (.reduce pr.number) := by
  obtain ⟨a, ha, hbeats⟩ := h.reduce hpr h0 hreach hfollow
  cases a with
  | shift r =>
    have hgoto := (h.of_shift ha).1
    rw [hshift] at hgoto
    cases hgoto
  | accept => cases hbeats
  | reduce n =>
    obtain ⟨rival, hrival, rfl, hend⟩ := h.of_reduce ha
    rw [ha, hreduce rival hrival hend hbeats]

lemma mapM_ok {α β ε : Type} (f : α → Except ε β) (xs : List α) (h : ∀ x ∈ xs, ∃ y, f x = .ok y) :
    ∃ ys, xs.mapM f = .ok ys := by
  induction xs with
  | nil => exact ⟨[], rfl⟩
  | cons x xs ih =>
    obtain ⟨y, hy⟩ := h x mem_cons_self
    obtain ⟨ys, hys⟩ := ih fun x hx => h x (mem_cons_of_mem _ hx)
    refine ⟨y :: ys, ?_⟩
    rw [mapM_cons, hy, hys]
    rfl

lemma of_mapM {α β ε : Type} {f : α → Except ε β} {xs : List α} {ys : List β} (h : xs.mapM f = .ok ys) {k : Nat} {y : β}
    (hy : ys[k]? = some y) : ∃ x, xs[k]? = some x ∧ f x = .ok y := by
  induction xs generalizing ys k with
  | nil =>
    obtain rfl := Except.ok.inj h
    cases hy
  | cons x xs ih =>
    rw [mapM_cons] at h
    cases hx : f x with
    | error e =>
      rw [hx] at h
      cases h
    | ok z =>
      cases hxs : xs.mapM f with
      | error e =>
        rw [hx, hxs] at h
        cases h
      | ok zs =>
        rw [hx, hxs] at h
        obtain rfl := Except.ok.inj h
        cases k with
        | zero => exact ⟨x, rfl, hx.trans (congrArg Except.ok (Option.some.inj hy))⟩
        | succ k => exact ih hxs hy

omit [DecidableEq S] [Vocabulary S] in
lemma of_ofTable {productions : List (Production S)} {table : Table S} (h : Tables.ofTable productions table = .ok t) :
    t.actions = (table.rows.map fun r => r.draft.actions) ∧ t.gotos = table.rows.map TableRow.gotos ∧
      t.productions = productions ∧
      ∀ {q n}, t.default? q = some n → ∃ row, t.actions[q]? = some row ∧ Tables.defaultOf row = .ok (some n) := by
  simp only [Tables.ofTable] at h
  cases hdefaults : (table.rows.map fun r => r.draft.actions).mapM Tables.defaultOf with
  | error e =>
    rw [hdefaults] at h
    cases h
  | ok defaults =>
    rw [hdefaults] at h
    obtain rfl := Except.ok.inj h
    refine ⟨rfl, rfl, rfl, ?_⟩
    intro q n hn
    exact of_mapM hdefaults (join_eq_some_iff.mp hn)

omit [Vocabulary S] in
lemma defaultOf_ok {row : ActionRow S} (h : ∀ {s}, row.get? s ≠ some none) : ∃ n, Tables.defaultOf row = .ok n := by
  unfold Tables.defaultOf
  split
  · exact ⟨_, rfl⟩
  · rename_i hvalues
    obtain ⟨⟨s, x⟩, hentries, hx⟩ := map_eq_singleton_iff.mp hvalues
    refine absurd ?_ (h (s := s))
    rw [Registry.get?, hentries]
    simpa using hx
  · exact ⟨_, rfl⟩

omit [Vocabulary S] in
lemma of_defaultOf {row : ActionRow S} {n : Nat} (h : Tables.defaultOf row = .ok (some n)) :
    (∃ s, row.get? s = some (some (.reduce n))) ∧ ∀ {s x}, row.get? s = some x → x = some (.reduce n) := by
  unfold Tables.defaultOf at h
  split at h
  · rename_i m hvalues
    obtain rfl : m = n := Option.some.inj (Except.ok.inj h)
    obtain ⟨⟨s, x⟩, hentries, hx⟩ := map_eq_singleton_iff.mp hvalues
    obtain rfl : x = some (.reduce m) := hx
    refine ⟨⟨s, by simp [Registry.get?, hentries]⟩, ?_⟩
    intro t y hy
    obtain ⟨e, he, -, rfl⟩ := Registry.mem_of_get? hy
    rw [hentries] at he
    rw [mem_singleton.mp he]
  · cases h
  · cases h

section Rows

variable {row : ActionRow S} {q : Nat} {s : S} {a : Action}

omit [Vocabulary S] in
lemma action?_iff (hq : t.actions[q]? = some row) : t.action? q s = some a ↔ row.get? s = some (some a) := by
  rw [Tables.action?, hq, getD_some]
  cases row.get? s with
  | none => simp
  | some x => simp

omit [Vocabulary S] in
lemma exists_row_of_action? (h : t.action? q s = some a) :
    ∃ row, t.actions[q]? = some row ∧ row.get? s = some (some a) := by
  cases hq : t.actions[q]? with
  | none =>
    rw [Tables.action?, hq] at h
    cases h
  | some row => exact ⟨row, rfl, (action?_iff hq).mp h⟩

end Rows

lemma respects_of_rows (hprod : t.productions = g.all) (hrow : ∀ {q row}, t.actions[q]? = some row → Row g p c q row)
    (hdefault : ∀ {q n}, t.default? q = some n → ∃ row, t.actions[q]? = some row ∧ Tables.defaultOf row = .ok (some n))
    (hof : ∀ {q s r}, t.goto? q s = some r → c.goto? q s = some r)
    (hgoto : ∀ {q s r}, c.goto? q s = some r → g.isNonterminal s = true → t.goto? q s = some r) : Respects t g p c where
  productions := hprod
  of_shift h := by
    obtain ⟨row, hq, hs⟩ := exists_row_of_action? h
    exact (hrow hq).of_shift hs
  of_reduce h := by
    obtain ⟨row, hq, hs⟩ := exists_row_of_action? h
    exact (hrow hq).of_reduce hs
  of_accept h := by
    obtain ⟨row, hq, hs⟩ := exists_row_of_action? h
    exact (hrow hq).of_accept hs
  of_default h := by
    obtain ⟨row, hq, hn⟩ := hdefault h
    obtain ⟨⟨s, hs⟩, hall⟩ := of_defaultOf hn
    refine ⟨⟨s, (action?_iff hq).mpr hs⟩, ?_⟩
    intro s a ha
    exact Option.some.inj (hall ((action?_iff hq).mp ha))
  of_goto := hof
  goto := hgoto

def Heeded (R : Action → Action → Prop) (t : Tables S) (g : Grammar S) (c : Collection S)
    (lookaheads : List (Lookahead.Entry S)) : Prop :=
  ∀ {q i s a}, i ∈ c.itemsOf q → Draft.Asks g c lookaheads q i s a → ∃ b, t.action? q s = some b ∧ R b a

section Built

variable {q : Nat} {lookaheads : List (Lookahead.Entry S)} (hr : g.Ready p start) (h : (Table.build g p).error? = none)

include hr h

lemma state_of_row {row : TableRow S} (hq : (Table.build g p).rows[q]? = some row) :
    ∃ st, (Collection.build g p).states[q]? = some st ∧
      Draft.addItems g (Collection.build g p) (Lookahead.compute g (Collection.build g p) start) q
        ((Collection.build g p).itemsOf q) {} = (row.draft, none) ∧
      row.gotos = Table.gotosOf g (Collection.build g p) q st.items := by
  obtain ⟨hlen, hget⟩ := rows_of_build hr.first.2 h
  have hlt : q < (Collection.build g p).states.length := hlen ▸ (List.getElem?_eq_some_iff.mp hq).1
  obtain ⟨d, hd, heq⟩ := hget (getElem?_eq_getElem hlt)
  rw [hq] at heq
  obtain rfl := Option.some.inj heq
  exact ⟨_, getElem?_eq_getElem hlt, hd, rfl⟩

variable (ht : Tables.ofTable g.all (Table.build g p) = .ok t)

include ht

lemma row_ofTable {row : ActionRow S} (hq : t.actions[q]? = some row) : Row g p (Collection.build g p) q row := by
  rw [(of_ofTable ht).1, getElem?_map] at hq
  obtain ⟨r, hrow, rfl⟩ := map_eq_some_iff.mp hq
  obtain ⟨-, -, hd, -⟩ := state_of_row hr h hrow
  exact row_of_addItems hr hr.explored hd

theorem respects_ofTable : Respects t g p (Collection.build g p) := by
  obtain ⟨hactions, hgotos, hprod, hdefault⟩ := of_ofTable ht
  have hexplored := hr.explored
  refine respects_of_rows hprod (row_ofTable hr h ht) hdefault ?_ ?_
  · intro q s r hgoto
    rw [Tables.goto?, hgotos, getElem?_map] at hgoto
    cases hq : (Table.build g p).rows[q]? with
    | none =>
      rw [hq] at hgoto
      cases hgoto
    | some row =>
      obtain ⟨st, -, -, hrow⟩ := state_of_row hr h hq
      rw [hq, map_some, getD_some, hrow, lookup_gotosOf] at hgoto
      split at hgoto
      · exact hgoto
      · cases hgoto
  · intro q s r hgoto hnon
    obtain ⟨i, hi, hs⟩ := hexplored.exists_expected hgoto
    obtain ⟨st, hst, -⟩ := hexplored.state_of_mem hi
    obtain ⟨d, -, hrow⟩ := (rows_of_build hr.first.2 h).2 hst
    rw [Tables.goto?, hgotos, getElem?_map, hrow, map_some, getD_some, lookup_gotosOf,
      if_pos ⟨next?_mem_symbolsOf (itemsOf_eq hst ▸ hi) hs, hnon⟩, hgoto]

lemma heeded_ofTable {R : Action → Action → Prop} (hrows : ∀ {q row}, (Table.build g p).rows[q]? = some row →
      Heeds R g (Collection.build g p) lookaheads q row.draft.actions) :
    Heeded R t g (Collection.build g p) lookaheads := by
  intro q i s a hi ha
  obtain ⟨st, hst, -⟩ := hr.explored.state_of_mem hi
  obtain ⟨d, hd, hrow⟩ := (rows_of_build hr.first.2 h).2 hst
  obtain ⟨b, hb, hR⟩ := hrows hrow hi ha
  refine ⟨b, (action?_iff ?_).mpr hb, hR⟩
  rw [(of_ofTable ht).1, getElem?_map, hrow]
  rfl

end Built

theorem serves_ofTable (h : Plain g p (Collection.build g p) start) :
    ∃ t, Tables.ofTable g.all (Table.build g p) = .ok t ∧ Serves t g p (Collection.build g p) start := by
  have hr := h.toReady
  have hheeds : ∀ {q row}, (Table.build g p).rows[q]? = some row → (∀ s, row.draft.actions.get? s ≠ some none) ∧
      Heeds (Draft.Beats g) g (Collection.build g p) (Lookahead.compute g (Collection.build g p) start) q
        row.draft.actions := by
    intro q row hrow
    obtain ⟨-, -, hd, -⟩ := state_of_row hr h.finished hrow
    exact heeds_beats hr h.explored hd h.final_first h.flat
  obtain ⟨defaults, hdefaults⟩ :=
    mapM_ok Tables.defaultOf ((Table.build g p).rows.map fun r => r.draft.actions) fun row hmem => by
      obtain ⟨r, hr, rfl⟩ := mem_map.mp hmem
      obtain ⟨q, hq⟩ := mem_iff_getElem?.mp hr
      exact defaultOf_ok fun {s} => (hheeds hq).1 s
  obtain ⟨t, ht⟩ : ∃ t, Tables.ofTable g.all (Table.build g p) = .ok t := by
    simp only [Tables.ofTable, hdefaults]
    exact ⟨_, rfl⟩
  have hasked : Heeded (Draft.Beats g) t g (Collection.build g p) (Lookahead.compute g (Collection.build g p) start) :=
    heeded_ofTable hr h.finished ht fun hrow => (hheeds hrow).2
  refine ⟨t, ht, respects_ofTable hr h.finished ht, fun ha => ?_, fun hi hs hterm => ?_, fun hpr h0 hreach hfollow => ?_,
    fun hi => ?_⟩
  · obtain ⟨row, hq, hs⟩ := exists_row_of_action? ha
    exact (row_ofTable hr h.finished ht hq).expected hs
  · obtain ⟨r, hasks⟩ := exists_asks_shift h.explored hi hs hterm
    obtain ⟨b, hb, hbeats⟩ := hasked hi hasks
    cases b with
    | shift r' => exact ⟨r', hb⟩
    | reduce n => cases hbeats
    | accept => cases hbeats
  · exact hasked (h.explored.dotted_length_mem h0 hreach) (asks_reduce hr h.explored h.sorted hpr h0 hreach hfollow)
  · obtain ⟨b, hb, hbeats⟩ := hasked hi (asks_accept hr)
    cases b with
    | shift r' => exact absurd rfl hbeats
    | reduce n => cases hbeats
    | accept => exact hb

theorem serves_ofGrammar (hg : g.Known) (h : Plain g p (Collection.build g p) start) :
    Serves (.ofGrammar g) g p (Collection.build g p) start := by
  obtain ⟨t, ht, hserves⟩ := serves_ofTable h
  have htables : Tables.ofGrammar g = t := by
    rw [Tables.ofGrammar, buildTable_table hg h.augmented, ht]
  rwa [htables]

end LispKit.Parser
