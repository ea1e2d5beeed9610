import LispKit.Automaton.Lookahead
import LispKit.Proofs.Automaton.Collection
import LispKit.Proofs.Automaton.Digraph
import LispKit.Proofs.Grammar.Derivation

/-! Lookaheads: what can follow a nonterminal step is among the lookaheads of the productions that end there. -/

set_option linter.unusedSectionVars false

namespace LispKit.Lookahead

open Vocabulary Collection List

variable {S : Type} [DecidableEq S] [Vocabulary S] {g : Grammar S} {p pr : Production S} {c : Collection S} {start : S}

inductive Starts (g : Grammar S) (c : Collection S) : Nat → S → Prop
  | here {q : Nat} {i : Item S} {s : S} : i ∈ c.itemsOf q → i.next? = some s → g.isTerminal s = true → Starts g c q s
  | past {q r : Nat} {i : Item S} {s t : S} : i ∈ c.itemsOf q → i.next? = some s → s ∈ g.nullable →
      c.goto? q s = some r → Starts g c r t → Starts g c q t

inductive Follows (g : Grammar S) (c : Collection S) (start : S) : Nat → S → S → Prop
  | starts {q r : Nat} {s t : S} : c.goto? q s = some r → Starts g c r t → Follows g c start q s t
  | last : Follows g c start 0 start endMark
  | outer {q r : Nat} {pr : Production S} {before after : List S} {s t : S} :
      pr.dotted 0 ∈ c.itemsOf q → (q, pr.name) ∈ transitions g c → pr.symbols = before ++ s :: after →
      (∀ a ∈ after, a ∈ g.nullable) → c.reach? q before = some r → Follows g c start q pr.name t →
      Follows g c start r s t

structure Sorted (g : Grammar S) : Prop where
  name : ∀ {p}, p ∈ g.productions → g.isNonterminal p.name = true
  symbol : ∀ {p}, p ∈ g.all → ∀ {s}, s ∈ p.symbols → g.isTerminal s = true ∨ g.isNonterminal s = true
  apart : ∀ {s}, g.isTerminal s = true → g.isNonterminal s = false
  vanishing : ∀ {s}, s ∈ g.nullable → g.isNonterminal s = true
  vanishes : ∀ {p}, p ∈ g.productions → (∀ s ∈ p.symbols, s ∈ g.nullable) → p.name ∈ g.nullable

lemma mem_transitions {q : Nat} {s : S} :
    (q, s) ∈ transitions g c ↔ ∃ i ∈ c.itemsOf q, i.next? = some s ∧ g.isNonterminal s = true := by
  rw [transitions, mem_distinct, mem_flatMap]
  constructor
  · rintro ⟨⟨st, k⟩, hst, hmem⟩
    have hget := mem_zipIdx_iff_getElem?.mp hst
    obtain ⟨t, ht, heq⟩ := mem_map.mp hmem
    obtain ⟨rfl, rfl⟩ := Prod.mk.inj heq
    obtain ⟨ht, hn⟩ := mem_filter.mp ht
    obtain ⟨i, hi, hnext⟩ := mem_filterMap.mp ht
    exact ⟨i, by rwa [itemsOf_eq hget], hnext, hn⟩
  · rintro ⟨i, hi, hnext, hn⟩
    unfold itemsOf at hi
    split at hi
    · cases hi
    · rename_i st hst
      exact ⟨(st, q), mem_zipIdx_iff_getElem?.mpr hst, mem_map.mpr ⟨s, mem_filter.mpr
        ⟨mem_filterMap.mpr ⟨i, hi, hnext⟩, hn⟩, rfl⟩⟩

lemma target_eq {q r : Nat} {s : S} (h : c.goto? q s = some r) : target c (q, s) = r := by
  rw [target, h, Option.getD_some]

section Reads

lemma mem_directReads {q r : Nat} {i : Item S} {s t : S} (hr : c.goto? q s = some r) (hi : i ∈ c.itemsOf r)
    (hnext : i.next? = some t) (ht : g.isTerminal t = true) : t ∈ directReads g c start (q, s) := by
  have hmem : t ∈ distinct ((aheadOf c (q, s)).filter g.isTerminal) := by
    rw [mem_distinct, mem_filter, aheadOf, target_eq hr]
    exact ⟨mem_filterMap.mpr ⟨i, hi, hnext⟩, ht⟩
  unfold directReads
  split
  · exact mem_append_left _ hmem
  · exact hmem

lemma mem_reads {q r : Nat} {i : Item S} {s t : S} {nullable : List S} (hr : c.goto? q s = some r)
    (hi : i ∈ c.itemsOf r) (hnext : i.next? = some t) (ht : t ∈ nullable) : (r, t) ∈ reads c nullable (q, s) := by
  rw [reads, target_eq hr, mem_map]
  refine ⟨t, mem_filter.mpr ⟨?_, by simpa using ht⟩, rfl⟩
  rw [aheadOf, target_eq hr]
  exact mem_filterMap.mpr ⟨i, hi, hnext⟩

lemma reads_mem_transitions (hs : Sorted g) {t u : Transition S} (hu : u ∈ reads c g.nullable t) :
    u ∈ transitions g c := by
  obtain ⟨a, ha, rfl⟩ := mem_map.mp hu
  obtain ⟨ha, hnull⟩ := mem_filter.mp ha
  obtain ⟨i, hi, hnext⟩ := mem_filterMap.mp ha
  exact mem_transitions.mpr ⟨i, hi, hnext, hs.vanishing (by simpa using hnull)⟩

lemma Starts.reads {r : Nat} {t : S} (h : Starts g c r t) {q : Nat} {s : S} (hr : c.goto? q s = some r) :
    ∃ u, Relation.ReflTransGen (fun a b => b ∈ reads c g.nullable a) (q, s) u ∧ t ∈ directReads g c start u := by
  induction h generalizing q s with
  | here hi hnext ht => exact ⟨(q, s), .refl, mem_directReads hr hi hnext ht⟩
  | past hi hnext hnull hgoto _ ih =>
    obtain ⟨u, hreach, hu⟩ := ih hgoto
    exact ⟨u, .head (mem_reads hr hi hnext hnull) hreach, hu⟩

end Reads

section Relations

variable {nullable : List S} {known : Transition S → Bool}

lemma walk_fst {q r : Nat} {ss : List S} (h : c.reach? q ss = some r) : (walk g c nullable known q ss).1 = r := by
  induction ss generalizing q with
  | nil => exact Option.some.inj h
  | cons s ss ih =>
    rw [reach?_cons] at h
    obtain ⟨q', hq', h⟩ := Option.bind_eq_some_iff.mp h
    rw [walk, target_eq hq']
    exact ih h

lemma mem_walk_snd {q r : Nat} {before after : List S} {s : S} (h : c.reach? q before = some r)
    (hk : known (r, s) = true) (ha : ∀ a ∈ after, g.isTerminal a = false ∧ a ∈ nullable) :
    (r, s) ∈ (walk g c nullable known q (before ++ s :: after)).2 := by
  induction before generalizing q with
  | nil =>
    obtain rfl := Option.some.inj h
    have hall : (after.all fun a => !g.isTerminal a && nullable.contains a) = true := by
      rw [all_eq_true]
      intro a hmem
      simpa using ha a hmem
    rw [nil_append, walk, hk, hall]
    exact mem_append_left _ mem_cons_self
  | cons b before ih =>
    rw [reach?_cons] at h
    obtain ⟨q', hq', h⟩ := Option.bind_eq_some_iff.mp h
    rw [cons_append, walk, target_eq hq']
    exact mem_append_right _ (ih h)

def walksOf (g : Grammar S) (c : Collection S) (nullable : List S) (known : Transition S → Bool) (t : Transition S) :
    List (Item S × Nat × List (Transition S)) :=
  ((c.itemsOf t.1).filter fun i => i.name = t.2).map fun i => (i, walk g c nullable known t.1 (i.symbols.drop i.dot))

lemma mem_walksOf {q : Nat} {pr : Production S} (hi : pr.dotted 0 ∈ c.itemsOf q) :
    (pr.dotted 0, walk g c nullable known q pr.symbols) ∈ walksOf g c nullable known (q, pr.name) :=
  mem_map.mpr ⟨pr.dotted 0, mem_filter.mpr ⟨hi, decide_eq_true rfl⟩, rfl⟩

def lookbacksOf (g : Grammar S) (c : Collection S) (nullable : List S) (known : Transition S → Bool)
    (t : Transition S) : List (Nat × Item S) :=
  (walksOf g c nullable known t).flatMap fun w => lookbackOf c w.2.1 w.1

def includedIn (g : Grammar S) (c : Collection S) (nullable : List S) (known : Transition S → Bool)
    (t : Transition S) : List (Transition S) :=
  (walksOf g c nullable known t).flatMap fun w => w.2.2

lemma relate_eq (r : Relations S) (t : Transition S) :
    relate g c nullable known r t = ⟨r.lookback ++ [(t, lookbacksOf g c nullable known t)],
      (includedIn g c nullable known t).foldl (fun r u => r.update u [] (· ++ [t])) r.includes⟩ := rfl

lemma foldl_relate_lookback (ts : List (Transition S)) (r : Relations S) :
    (ts.foldl (relate g c nullable known) r).lookback =
      r.lookback ++ ts.map fun t => (t, lookbacksOf g c nullable known t) := by
  induction ts generalizing r with
  | nil => simp
  | cons t ts ih =>
    rw [foldl_cons, ih, relate_eq, map_cons, append_assoc]
    rfl

lemma mem_foldl_update (us : List (Transition S)) (t : Transition S)
    (r : Registry (Transition S) (List (Transition S))) (u v : Transition S) :
    v ∈ (us.foldl (fun r u => r.update u [] (· ++ [t])) r).getD u [] ↔ v ∈ r.getD u [] ∨ u ∈ us ∧ v = t := by
  induction us generalizing r with
  | nil => simp
  | cons w us ih =>
    rw [foldl_cons, ih, Registry.update, mem_cons]
    by_cases hw : w = u
    · subst hw
      rw [Registry.getD, Registry.get?_insert_self, Option.getD_some, mem_append, mem_singleton]
      tauto
    · have hne : (w == u) = false := beq_eq_false_iff_ne.mpr hw
      rw [Registry.getD, Registry.get?_insert_of_ne _ _ hne]
      have : u ≠ w := Ne.symm hw
      simp only [Registry.getD]
      tauto

lemma mem_foldl_relate_includes (ts : List (Transition S)) (r : Relations S) (u v : Transition S) :
    v ∈ (ts.foldl (relate g c nullable known) r).includes.getD u [] ↔
      v ∈ r.includes.getD u [] ∨ v ∈ ts ∧ u ∈ includedIn g c nullable known v := by
  induction ts generalizing r with
  | nil => simp
  | cons t ts ih =>
    rw [foldl_cons, ih, relate_eq, mem_foldl_update, mem_cons]
    constructor
    · rintro ((h | ⟨h, rfl⟩) | ⟨h, h'⟩)
      · exact .inl h
      · exact .inr ⟨.inl rfl, h⟩
      · exact .inr ⟨.inr h, h'⟩
    · rintro (h | ⟨rfl | h, h'⟩)
      · exact .inl (.inl h)
      · exact .inl (.inr ⟨h', rfl⟩)
      · exact .inr ⟨h, h'⟩

lemma mem_includes {ts : List (Transition S)} {u v : Transition S} :
    v ∈ (relations g c nullable ts).includes.getD u [] ↔ v ∈ ts ∧ u ∈ includedIn g c nullable ts.contains v := by
  rw [relations, mem_foldl_relate_includes]
  constructor
  · rintro (h | h)
    · cases h
    · exact h
  · exact .inr

end Relations

/-- The relations of a collection, and what follows each of its transitions. -/
abbrev related (g : Grammar S) (c : Collection S) : Relations S :=
  relations g c g.nullable (transitions g c)

abbrev following (g : Grammar S) (c : Collection S) (start : S) : Slots (Transition S) S :=
  followSets g c start g.nullable (transitions g c) (related g c)

section Follow

variable (hs : Sorted g)

include hs

lemma Follows.included {q : Nat} {s t : S} (h : Follows g c start q s t) (hq : (q, s) ∈ transitions g c) :
    ∃ u ∈ transitions g c,
      Relation.ReflTransGen (fun a b => b ∈ (related g c).includes.getD a []) (q, s) u ∧
      ∃ v, Relation.ReflTransGen (fun a b => b ∈ reads c g.nullable a) u v ∧ t ∈ directReads g c start v := by
  induction h with
  | starts hr hstarts => exact ⟨_, hq, .refl, hstarts.reads hr⟩
  | last => exact ⟨_, hq, .refl, _, .refl, by simp [directReads]⟩
  | @outer q r pr before after s t hi hmem hsym hafter hreach _ ih =>
    obtain ⟨u, hu, hincl, hv⟩ := ih hmem
    refine ⟨u, hu, .head ?_ hincl, hv⟩
    refine mem_includes.mpr ⟨hmem, mem_flatMap.mpr ⟨_, mem_walksOf hi, ?_⟩⟩
    rw [hsym]
    refine mem_walk_snd hreach (by simpa using hq) ?_
    intro a ha
    refine ⟨?_, hafter a ha⟩
    by_contra hterm
    rw [Bool.not_eq_false] at hterm
    have := hs.vanishing (hafter a ha)
    rw [hs.apart hterm] at this
    cases this

lemma mem_followSets_of_included {x u v : Transition S} {t : S} (hx : x ∈ transitions g c) (hu : u ∈ transitions g c)
    (hincl : Relation.ReflTransGen (fun a b => b ∈ (related g c).includes.getD a []) x u)
    (hreads : Relation.ReflTransGen (fun a b => b ∈ reads c g.nullable a) u v) (ht : t ∈ directReads g c start v) :
    t ∈ (following g c start).get x := by
  have hnext : ∀ x ∈ transitions g c, ∀ y ∈ reads c g.nullable x, y ∈ transitions g c :=
    fun x _ y hy => reads_mem_transitions hs hy
  have hcells := Digraph.hasCells_ofLists (transitions g c) (directReads g c start)
  have hv : v ∈ transitions g c := by
    clear ht
    induction hreads with
    | refl => exact hu
    | tail _ hstep _ => exact reads_mem_transitions hs hstep
  refine Digraph.mem_solve (fun x _ y hy => (mem_includes.mp hy).1) (Digraph.hasCells_solve hnext hcells) hx hincl ?_
  refine Digraph.mem_solve hnext hcells hu hreads ?_
  rwa [Digraph.get_ofLists _ hv]

lemma mem_followSets {q : Nat} {s t : S} (h : Follows g c start q s t) (hq : (q, s) ∈ transitions g c) :
    t ∈ (following g c start).get (q, s) := by
  obtain ⟨u, hu, hincl, v, hreads, ht⟩ := h.included hs hq
  exact mem_followSets_of_included hs hq hu hincl hreads ht

end Follow

section Limited

structure Limited (g : Grammar S) (c : Collection S) (start : S) (only : S → Option S) : Prop where
  next : ∀ {q r s t u i}, c.goto? q s = some r → only s = some u → i ∈ c.itemsOf r → i.next? = some t → t = u
  solid : ∀ {s u}, only s = some u → u ∉ g.nullable
  last : ∀ {u}, only start = some u → u = endMark
  outer : ∀ {pr before after s u}, pr ∈ g.all → pr.symbols = before ++ s :: after → (∀ a ∈ after, a ∈ g.nullable) →
    only s = some u → only pr.name = some u

lemma Limited.eq_of_follows {only : S → Option S} (h : Limited g c start only) (hc : Explored g p c) {q : Nat}
    {s t u : S} (hf : Follows g c start q s t) (hu : only s = some u) : t = u := by
  induction hf with
  | starts hr hstarts =>
    cases hstarts with
    | here hi hnext _ => exact h.next hr hu hi hnext
    | past hi hnext hnull _ _ =>
      obtain rfl := h.next hr hu hi hnext
      exact absurd hnull (h.solid hu)
  | last => exact (h.last hu).symm
  | @outer _ _ begun _ _ _ _ hi _ hsym hafter _ _ ih =>
    obtain ⟨pr, hpr, d, -, heq⟩ := hc.belongs hi
    have hname : begun.name = pr.name := congrArg Item.name heq
    have hsym : pr.symbols = _ := (congrArg Item.symbols heq).symm.trans hsym
    apply ih
    rw [hname]
    exact h.outer hpr hsym hafter hu

end Limited

section Entries

variable {entries : List (Entry S)} {state state' : Nat} {item item' : Item S} {symbols symbols' : List S}
  {items : List (Nat × Item S)}

def Has (entries : List (Entry S)) (state : Nat) (item : Item S) (symbols : List S) : Prop :=
  ∃ found, find? entries state item = some found ∧ ∀ a ∈ symbols, a ∈ found

lemma item_same_self (i : Item S) : i.same i = true := by
  simp [Item.same]

lemma find?_addEntry_of_any (h : (entries.any fun e => e.state == state && e.item.same item) = true) :
    find? (addEntry entries state item symbols) state' item' =
      (entries.find? fun e => e.state == state' && e.item.same item').map fun e =>
        if e.state == state && e.item.same item then
          symbols.foldl (fun seen a => if seen.contains a then seen else seen ++ [a]) e.symbols else e.symbols := by
  rw [find?, addEntry, if_pos h, find?_map, Option.map_map]
  have hkey : ((fun e : Entry S => e.state == state' && e.item.same item') ∘ fun e =>
      if e.state == state && e.item.same item then
        { e with symbols := symbols.foldl (fun seen a => if seen.contains a then seen else seen ++ [a]) e.symbols }
      else e) = fun e => e.state == state' && e.item.same item' := by
    funext e
    dsimp only [Function.comp]
    split <;> rfl
  rw [hkey]
  congr 1
  funext e
  dsimp only [Function.comp]
  split <;> rfl

lemma has_addEntry_self : Has (addEntry entries state item symbols) state item symbols := by
  by_cases h : (entries.any fun e => e.state == state && e.item.same item) = true
  · rw [Has, find?_addEntry_of_any h]
    obtain ⟨e, he, hkey⟩ := any_eq_true.mp h
    obtain ⟨f, hf⟩ := Option.isSome_iff_exists.mp
      (find?_isSome (p := fun e => e.state == state && e.item.same item).mpr ⟨e, he, hkey⟩)
    refine ⟨_, by rw [hf]; rfl, ?_⟩
    intro a ha
    beta_reduce
    rw [if_pos (find?_some hf), mem_foldl_distinct]
    exact .inr ha
  · have hnone : (entries.find? fun e => e.state == state && e.item.same item) = none := by
      rw [find?_eq_none]
      intro e he hkey
      exact h (any_eq_true.mpr ⟨e, he, hkey⟩)
    refine ⟨distinct symbols, ?_, fun a ha => mem_distinct.mpr ha⟩
    rw [find?, addEntry, if_neg h, find?_append, hnone]
    simp [item_same_self]

lemma Has.addEntry (h : Has entries state' item' symbols') :
    Has (addEntry entries state item symbols) state' item' symbols' := by
  obtain ⟨found, hfound, hmem⟩ := h
  obtain ⟨e, he, rfl⟩ := Option.map_eq_some_iff.mp hfound
  by_cases hany : (entries.any fun e => e.state == state && e.item.same item) = true
  · rw [Has, find?_addEntry_of_any hany, he]
    refine ⟨_, rfl, ?_⟩
    intro a ha
    beta_reduce
    split
    · rw [mem_foldl_distinct]
      exact .inl (hmem a ha)
    · exact hmem a ha
  · refine ⟨e.symbols, ?_, hmem⟩
    rw [find?, Lookahead.addEntry, if_neg hany, find?_append, he]
    rfl

lemma Has.addEntries (items : List (Nat × Item S)) (h : Has entries state' item' symbols') :
    Has (items.foldl (fun es (e : Nat × Item S) => Lookahead.addEntry es e.1 e.2 symbols) entries) state' item'
      symbols' := by
  induction items generalizing entries with
  | nil => exact h
  | cons e items ih => exact ih h.addEntry

lemma has_addEntries (h : (state, item) ∈ items) (entries : List (Entry S)) :
    Has (items.foldl (fun es (e : Nat × Item S) => addEntry es e.1 e.2 symbols) entries) state item symbols := by
  induction items generalizing entries with
  | nil => cases h
  | cons e items ih =>
    rcases mem_cons.mp h with rfl | h
    · exact Has.addEntries items has_addEntry_self
    · exact ih h _

lemma has_foldl {lookback : List (Transition S × List (Nat × Item S))} (follow : Transition S → List S)
    {t : Transition S} (ht : (t, items) ∈ lookback) (hi : (state, item) ∈ items) (entries : List (Entry S)) :
    Has (lookback.foldl (fun es (l : Transition S × List (Nat × Item S)) =>
      l.2.foldl (fun es (e : Nat × Item S) => addEntry es e.1 e.2 (follow l.1)) es) entries) state item (follow t) := by
  have hkeep : ∀ (lookback : List (Transition S × List (Nat × Item S))) entries, Has entries state item (follow t) →
      Has (lookback.foldl (fun es (l : Transition S × List (Nat × Item S)) =>
        l.2.foldl (fun es (e : Nat × Item S) => addEntry es e.1 e.2 (follow l.1)) es) entries) state item
        (follow t) := by
    intro lookback
    induction lookback with
    | nil => exact fun _ h => h
    | cons l lookback ih => exact fun entries h => ih _ (Has.addEntries l.2 h)
  induction lookback generalizing entries with
  | nil => cases ht
  | cons l lookback ih =>
    rcases mem_cons.mp ht with rfl | ht
    · exact hkeep lookback _ (has_addEntries hi entries)
    · exact ih ht _

end Entries

section Trees

variable {α : Type} {type : α → S} {ts : List (ParseTree S α)} {t u : ParseTree S α} {w : List α}

def rulesOf (g : Grammar S) : List (S × List S) :=
  g.productions.map fun p => (p.name, p.symbols)

lemma exists_production (hg : g.Numbered) {name : S} {symbols : List S} (h : (name, symbols) ∈ rulesOf g) :
    ∃ pr ∈ g.productionsOf name, pr.name = name ∧ pr.symbols = symbols := by
  obtain ⟨pr, hpr, heq⟩ := mem_map.mp h
  obtain ⟨rfl, rfl⟩ := Prod.mk.inj heq
  exact ⟨pr, hg.mem hpr, rfl, rfl⟩

open ParseTree

lemma root_mem_nullable (hs : Sorted g) (ht : t.Fits (rulesOf g) (g.isTerminal · = true) type)
    (hw : t.word = []) : t.root type ∈ g.nullable := by
  induction ht with
  | leaf a _ => cases hw
  | node name children hrule _ ih =>
    obtain ⟨pr, hpr, heq⟩ := mem_map.mp hrule
    obtain ⟨rfl, hsym⟩ := Prod.mk.inj heq
    apply hs.vanishes hpr
    intro s hmem
    rw [hsym] at hmem
    obtain ⟨t, ht, rfl⟩ := mem_map.mp hmem
    have hnil : ∀ u ∈ children, u.word = [] := by
      rw [word, words_eq, flatMap_eq_nil_iff] at hw
      exact hw
    exact ih t ht (hnil t ht)

def ReadFirst (g : Grammar S) (c : Collection S) (type : α → S) (t : ParseTree S α) : Prop :=
  ∀ {r : Nat} {pr : Production S} {d : Nat} {a : α} {w : List α}, pr.dotted d ∈ c.itemsOf r →
    pr.symbols[d]? = some (t.root type) → t.word = a :: w → Starts g c r (type a)

lemma next_of_drop {β : Type} {l rest : List β} {d : Nat} {a : β} (h : l.drop d = a :: rest) :
    l[d]? = some a ∧ l.drop (d + 1) = rest := by
  rw [← head?_drop, ← tail_drop, h]
  exact ⟨rfl, rfl⟩

lemma starts_of_words (hs : Sorted g) (hc : Explored g p c)
    (hfits : ∀ t ∈ ts, t.Fits (rulesOf g) (g.isTerminal · = true) type) (hfirst : ∀ t ∈ ts, ReadFirst g c type t)
    {pr : Production S} {d r : Nat} {rest : List S} {a : α} (hi : pr.dotted d ∈ c.itemsOf r)
    (hsym : pr.symbols.drop d = ts.map (root type) ++ rest) (hw : words ts = a :: w) : Starts g c r (type a) := by
  induction ts generalizing d r with
  | nil => cases hw
  | cons t ts ih =>
    obtain ⟨hnext, hdrop⟩ := next_of_drop hsym
    cases ht : t.word with
    | cons b v =>
      rw [words, ht, cons_append] at hw
      obtain ⟨rfl, -⟩ := List.cons.inj hw
      exact hfirst t mem_cons_self hi hnext ht
    | nil =>
      rw [words, ht, nil_append] at hw
      obtain ⟨r', hr'⟩ := hc.exists_goto? hi hnext
      have hnull := root_mem_nullable hs (hfits t mem_cons_self) ht
      refine .past hi hnext hnull hr' (ih ?_ ?_ (hc.dotted_succ_mem hi hnext hr') hdrop hw)
      · exact fun u hu => hfits u (mem_cons_of_mem _ hu)
      · exact fun u hu => hfirst u (mem_cons_of_mem _ hu)

lemma readFirst (hs : Sorted g) (hc : Explored g p c)
    (ht : t.Fits (rulesOf g) (g.isTerminal · = true) type) : ReadFirst g c type t := by
  induction ht with
  | leaf a hterm =>
    intro r pr d b w hi hnext hw
    obtain ⟨rfl, -⟩ := List.cons.inj hw
    exact .here hi hnext hterm
  | node name children hrule hfits ih =>
    intro r pr d b w hi hnext hw
    obtain ⟨begun, hbegun, -, hsym⟩ := exists_production hc.numbered hrule
    have hdrop : begun.symbols.drop 0 = children.map (root type) ++ [] := by
      rw [drop_zero, hsym, append_nil]
    exact starts_of_words hs hc hfits ih (hc.dotted_zero_mem hi hnext hbegun) hdrop hw

def firstType (type : α → S) : List α → S
  | [] => endMark
  | a :: _ => type a

lemma follows_child (hs : Sorted g) (hc : Explored g p c) {pr : Production S} {q₀ q r d : Nat}
    (h0 : pr.dotted 0 ∈ c.itemsOf q₀) (htrans : (q₀, pr.name) ∈ transitions g c)
    (hfollow : Follows g c start q₀ pr.name (firstType type w))
    (hfits : ∀ u ∈ ts, u.Fits (rulesOf g) (g.isTerminal · = true) type)
    (hreach : c.reach? q₀ (pr.symbols.take d) = some q) (hi : pr.dotted d ∈ c.itemsOf q)
    (hsym : pr.symbols.drop d = u.root type :: ts.map (root type)) (hr : c.goto? q (u.root type) = some r) :
    Follows g c start q (u.root type) (firstType type (words ts ++ w)) := by
  obtain ⟨hnext, hdrop⟩ := next_of_drop hsym
  cases hw : words ts with
  | cons a v =>
    rw [← append_nil (ts.map _)] at hdrop
    exact .starts hr (starts_of_words hs hc hfits (fun u hu => readFirst hs hc (hfits u hu))
      (hc.dotted_succ_mem hi hnext hr) hdrop hw)
  | nil =>
    have hsplit : pr.symbols = pr.symbols.take d ++ u.root type :: ts.map (root type) := by
      rw [← hsym, take_append_drop]
    refine .outer h0 htrans hsplit ?_ hreach hfollow
    intro a ha
    obtain ⟨x, hx, rfl⟩ := mem_map.mp ha
    rw [words_eq, flatMap_eq_nil_iff] at hw
    exact root_mem_nullable hs (hfits x hx) (hw x hx)

end Trees

lemma repeats_dotted (pr : Production S) : repeats (pr.dotted pr.symbols.length) (pr.dotted 0) = true := by
  simp [repeats, Production.dotted, Item.marked]

variable (start) in
lemma has_compute_of_lookback {u : Transition S} (hu : u ∈ transitions g c) {r : Nat} {i : Item S}
    (hi : (r, i) ∈ lookbacksOf g c g.nullable (transitions g c).contains u) : Has (compute g c start) r i
      ((following g c start).get u) := by
  have hlook : (u, lookbacksOf g c g.nullable (transitions g c).contains u) ∈ (related g c).lookback := by
    rw [related, relations, foldl_relate_lookback]
    exact mem_append_right _ (mem_map.mpr ⟨_, hu, rfl⟩)
  exact has_foldl (following g c start).get hlook hi []

lemma mem_lookbacksOf_of_reach (hc : Explored g p c) {q r : Nat} (hi : pr.dotted 0 ∈ c.itemsOf q)
    (hr : c.reach? q pr.symbols = some r) :
    (r, pr.dotted pr.symbols.length) ∈ lookbacksOf g c g.nullable (transitions g c).contains (q, pr.name) := by
  have hend := hc.dotted_length_mem hi hr
  refine mem_flatMap.mpr ⟨_, mem_walksOf hi, ?_⟩
  rw [walk_fst hr]
  exact mem_map.mpr ⟨_, mem_filter.mpr ⟨hend, repeats_dotted pr⟩, rfl⟩

/-- A production that has been followed from a step to its end is reduced before all that follows the step. -/
theorem has_compute (hs : Sorted g) (hc : Explored g p c) {q r : Nat} (hi : pr.dotted 0 ∈ c.itemsOf q)
    (hq : (q, pr.name) ∈ transitions g c) (hr : c.reach? q pr.symbols = some r) :
    ∃ found, find? (compute g c start) r (pr.dotted pr.symbols.length) = some found ∧
      ∀ t, Follows g c start q pr.name t → t ∈ found := by
  obtain ⟨found, hfound, hmem⟩ := has_compute_of_lookback start hq (mem_lookbacksOf_of_reach hc hi hr)
  exact ⟨found, hfound, fun t ht => hmem t (mem_followSets hs ht hq)⟩

section Bounded

def Expected (c : Collection S) (s : S) : Prop :=
  s = endMark ∨ ∃ q, ∃ i ∈ c.itemsOf q, i.next? = some s

lemma expected_directReads {t : Transition S} {s : S} (h : s ∈ directReads g c start t) : Expected c s := by
  have hterm : s ∈ distinct ((aheadOf c t).filter g.isTerminal) → Expected c s := by
    intro hmem
    rw [mem_distinct, mem_filter] at hmem
    obtain ⟨i, hi, hnext⟩ := mem_filterMap.mp hmem.1
    exact .inr ⟨_, i, hi, hnext⟩
  unfold directReads at h
  split at h
  · rcases mem_append.mp h with h | h
    · exact hterm h
    · exact .inl (mem_singleton.mp h)
  · exact hterm h

lemma expected_followSets {nullable : List S} {ts : List (Transition S)} {r : Relations S} {t : Transition S} {s : S}
    (h : s ∈ (followSets g c start nullable ts r).get t) : Expected c s := by
  have hjoins := Digraph.joins_forall (Expected c)
  refine Digraph.Bounded.get hjoins (Digraph.Bounded.solve hjoins _ (Digraph.Bounded.solve hjoins _ ?_)) t s h
  intro held hmem a ha
  obtain ⟨t, -, rfl⟩ := mem_map.mp hmem
  exact expected_directReads ha

end Bounded

section Compute

variable {entries : List (Entry S)} {state : Nat} {item : Item S} {symbols : List S} {s : S}

lemma compute_induction {Q : List (Entry S) → Prop} (nil : Q [])
    (add : ∀ {entries u state item}, Q entries → u ∈ transitions g c →
      (state, item) ∈ lookbacksOf g c g.nullable (transitions g c).contains u →
      Q (addEntry entries state item ((following g c start).get u))) : Q (compute g c start) := by
  have hitems : ∀ u ∈ transitions g c, ∀ items : List (Nat × Item S),
      (∀ e ∈ items, e ∈ lookbacksOf g c g.nullable (transitions g c).contains u) → ∀ entries, Q entries →
      Q (items.foldl (fun es (e : Nat × Item S) => addEntry es e.1 e.2 ((following g c start).get u)) entries) := by
    intro u hu items
    induction items with
    | nil => exact fun _ _ h => h
    | cons e items ih =>
      exact fun hmem _ h => ih (fun e he => hmem e (mem_cons_of_mem _ he)) _ (add h hu (hmem e mem_cons_self))
  have hall : ∀ lookback : List (Transition S × List (Nat × Item S)),
      (∀ l ∈ lookback, l.1 ∈ transitions g c ∧ l.2 = lookbacksOf g c g.nullable (transitions g c).contains l.1) →
      ∀ entries, Q entries →
      Q (lookback.foldl (fun es (l : Transition S × List (Nat × Item S)) => l.2.foldl
        (fun es (e : Nat × Item S) => addEntry es e.1 e.2 ((following g c start).get l.1)) es) entries) := by
    intro lookback
    induction lookback with
    | nil => exact fun _ _ h => h
    | cons l lookback ih =>
      intro hmem entries h
      obtain ⟨hu, hl⟩ := hmem l mem_cons_self
      exact ih (fun l hl => hmem l (mem_cons_of_mem _ hl)) _ (hitems l.1 hu l.2 (fun e he => hl ▸ he) _ h)
  refine hall _ (fun l hl => ?_) [] nil
  rw [relations, foldl_relate_lookback] at hl
  obtain ⟨u, hu, rfl⟩ := mem_map.mp hl
  exact ⟨hu, rfl⟩

lemma bounded_addEntry {P : Nat → Item S → S → Prop} (h : ∀ e ∈ entries, ∀ a ∈ e.symbols, P e.state e.item a)
    (hs : ∀ i, i.same item = true → ∀ a ∈ symbols, P state i a) :
    ∀ e ∈ addEntry entries state item symbols, ∀ a ∈ e.symbols, P e.state e.item a := by
  intro e he a ha
  unfold addEntry at he
  split at he
  · obtain ⟨f, hf, rfl⟩ := mem_map.mp he
    split at ha
    · rename_i hkey
      rw [if_pos hkey]
      obtain ⟨hstate, hsame⟩ := Bool.and_eq_true_iff.mp hkey
      rw [mem_foldl_distinct] at ha
      rcases ha with ha | ha
      · exact h f hf a ha
      · obtain rfl := eq_of_beq hstate
        exact hs f.item hsame a ha
    · rename_i hkey
      rw [if_neg hkey]
      exact h f hf a ha
  · rcases mem_append.mp he with he | he
    · exact h e he a ha
    · obtain rfl := mem_singleton.mp he
      exact hs item (item_same_self item) a (mem_distinct.mp ha)

def FollowsBack (g : Grammar S) (c : Collection S) (start : S) (state : Nat) (item : Item S) (s : S) : Prop :=
  ∃ u ∈ transitions g c,
    (∃ i, (state, i) ∈ lookbacksOf g c g.nullable (transitions g c).contains u ∧ i.same item = true) ∧
    s ∈ (followSets g c start g.nullable (transitions g c) (relations g c g.nullable (transitions g c))).get u

lemma FollowsBack.congr {i j : Item S} (h : FollowsBack g c start state i s) (hij : i.same j = true) :
    FollowsBack g c start state j s := by
  obtain ⟨u, hu, ⟨k, hk, hki⟩, hs⟩ := h
  refine ⟨u, hu, ⟨k, hk, ?_⟩, hs⟩
  simp only [Item.same, Bool.and_eq_true, beq_iff_eq] at hki hij ⊢
  exact ⟨hki.1.trans hij.1, hki.2.trans hij.2⟩

lemma followsBack_of_mem (h : find? (compute g c start) state item = some symbols) (hs : s ∈ symbols) :
    FollowsBack g c start state item s := by
  obtain ⟨e, he, rfl⟩ := Option.map_eq_some_iff.mp h
  have hkey := find?_some he
  obtain ⟨hstate, hsame⟩ := Bool.and_eq_true_iff.mp hkey
  have hall : ∀ e ∈ compute g c start, ∀ a ∈ e.symbols, FollowsBack g c start e.state e.item a := by
    refine compute_induction (Q := fun es => ∀ e ∈ es, ∀ a ∈ e.symbols, FollowsBack g c start e.state e.item a)
      (by simp) ?_
    intro entries u state item h hu hi
    refine bounded_addEntry h fun i hsame a ha => ⟨u, hu, ⟨item, hi, ?_⟩, ha⟩
    simp only [Item.same, Bool.and_eq_true, beq_iff_eq] at hsame ⊢
    exact ⟨hsame.1.symm, hsame.2.symm⟩
  obtain rfl := eq_of_beq hstate
  exact (hall e (mem_of_find?_eq_some he) s hs).congr hsame

lemma expected_compute (h : find? (compute g c start) state item = some symbols) (hs : s ∈ symbols) : Expected c s := by
  obtain ⟨u, -, -, hu⟩ := followsBack_of_mem h hs
  exact expected_followSets hu

lemma nodup_addEntry (h : ∀ e ∈ entries, e.symbols.Nodup) : ∀ e ∈ addEntry entries state item symbols, e.symbols.Nodup := by
  intro e he
  unfold addEntry at he
  split at he
  · obtain ⟨f, hf, rfl⟩ := mem_map.mp he
    split
    · exact nodup_foldl_distinct _ (h f hf)
    · exact h f hf
  · rcases mem_append.mp he with he | he
    · exact h e he
    · obtain rfl := mem_singleton.mp he
      exact nodup_foldl_distinct _ nodup_nil

lemma nodup_compute (h : find? (compute g c start) state item = some symbols) : symbols.Nodup := by
  obtain ⟨e, he, rfl⟩ := Option.map_eq_some_iff.mp h
  have hall : ∀ e ∈ compute g c start, e.symbols.Nodup :=
    compute_induction (Q := fun entries => ∀ e ∈ entries, e.symbols.Nodup) (by simp) fun h _ _ => nodup_addEntry h
  exact hall e (mem_of_find?_eq_some he)

end Compute

end LispKit.Lookahead
