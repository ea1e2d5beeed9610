import LispKit.Automaton.Table
import LispKit.Proofs.Grammar.Declare

/-! The entries of a row: the actions that the items ask for are placed one after the other, and what stands before a
symbol in the end is settled between those that are asked for before it. -/

set_option linter.unusedSectionVars false

namespace LispKit

open Vocabulary Collection List Registry

namespace Registry

variable {κ ν : Type} [DecidableEq κ] {r : Registry κ ν}

lemma nodup_keys_insert (h : r.keys.Nodup) (k : κ) (v : ν) : (r.insert k v).keys.Nodup := by
  rw [keys_insert]
  split
  · exact h
  · rename_i hk
    rw [← concat_eq_append, nodup_concat]
    exact ⟨fun hmem => hk ((contains_iff_mem_keys r k).mpr hmem), h⟩

lemma get?_eq_none {k : κ} (h : k ∉ r.keys) : r.get? k = none := by
  rw [get?, Option.map_eq_none_iff, find?_eq_none]
  intro e he hk
  exact h (mem_map.mpr ⟨e, he, eq_of_beq hk⟩)

/-- Binding a key replaces its value. -/
lemma countP_values_insert (h : r.keys.Nodup) (k : κ) (v : ν) (P : ν → Bool) :
    (r.insert k v).values.countP P + (r.get? k).toList.countP P = r.values.countP P + [v].countP P := by
  obtain ⟨entries⟩ := r
  by_cases hk : k ∈ (⟨entries⟩ : Registry κ ν).keys
  · rw [insert, if_pos ((contains_iff_mem_keys _ k).mpr hk)]
    simp only [values, get?, keys] at h hk ⊢
    induction entries with
    | nil => cases hk
    | cons e entries ih =>
      rw [map_cons, nodup_cons] at h
      by_cases he : e.1 = k
      · have hrest : entries.map (fun e => if e.1 == k then (e.1, v) else e) = entries := by
          refine (map_congr_left fun e' he' => if_neg ?_).trans (map_id _)
          rw [beq_iff_eq]
          rintro rfl
          exact h.1 (he ▸ mem_map_of_mem he')
        have hb : (e.1 == k) = true := beq_iff_eq.mpr he
        rw [map_cons, hrest, if_pos hb]
        simp only [map_cons, find?_cons, hb, Option.map_some, Option.toList_some, countP_cons, countP_nil]
        omega
      · have hb : (e.1 == k) = false := beq_eq_false_iff_ne.mpr he
        have := ih h.2 ((mem_cons.mp hk).resolve_left (Ne.symm he))
        simp only [map_cons, hb, find?_cons, Bool.false_eq_true, if_false, countP_cons] at this ⊢
        omega
  · rw [insert, if_neg (mt (contains_iff_mem_keys _ k).mp hk), get?_eq_none hk]
    simp [values]

lemma getD_update_add (r : Registry κ Int) (k l : κ) (i : Int) :
    (r.update k 0 (· + i)).getD l 0 = r.getD l 0 + if k = l then i else 0 := by
  by_cases hk : k = l
  · subst hk
    rw [getD_update_self, if_pos rfl]
  · rw [getD_update_of_ne _ _ _ hk, if_neg hk, Int.add_zero]

end Registry

def Precedence.resolve (shift rule : Precedence) (target number : Nat) : Option Action :=
  if rule.level < shift.level ∨ shift.level = rule.level ∧ rule.associativity = .right then some (.shift target)
  else if shift.level = rule.level ∧ rule.associativity = .nonassoc then none
  else some (.reduce number)

section Resolve

variable {shift rule : Precedence} {target n : Nat}

lemma resolve_reduce (h : shift.level < rule.level ∨ shift.level = rule.level ∧ rule.associativity = .left) :
    shift.resolve rule target n = some (.reduce n) := by
  rw [Precedence.resolve, if_neg, if_neg]
  all_goals grind

lemma resolve_refuse (h : shift.level = rule.level ∧ rule.associativity = .nonassoc) : shift.resolve rule target n = none := by
  rw [Precedence.resolve, if_neg, if_pos h]
  grind

lemma resolve_shift (h : rule.level < shift.level ∨ shift.level = rule.level ∧ rule.associativity = .right) :
    shift.resolve rule target n = some (.shift target) :=
  if_pos h

lemma resolve_cases (shift rule : Precedence) :
    (rule.level < shift.level ∨ shift.level = rule.level ∧ rule.associativity = .right) ∨
    (shift.level < rule.level ∨ shift.level = rule.level ∧ rule.associativity = .left) ∨
    shift.level = rule.level ∧ rule.associativity = .nonassoc := by
  cases h : rule.associativity <;> simp <;> omega

end Resolve

variable {S : Type} [DecidableEq S] [Vocabulary S] {g : Grammar S} {c : Collection S}

namespace Draft

variable {d d' : Draft S} {s t : S} {item : Item S} {state target : Nat} {a : Action} {x : Option Action}
  {lookaheads : List (Lookahead.Entry S)} {pr : Proposal S} {prs more : List (Proposal S)}

section Placed

def asked (g : Grammar S) (c : Collection S) (lookaheads : List (Lookahead.Entry S)) (state : Nat) (item : Item S) :
    List (Proposal S) :=
  match item.next? with
  | none =>
    if item.name = startMark then [⟨endMark, item, .accept⟩]
    else ((Lookahead.find? lookaheads state item).getD []).map fun s => ⟨s, item, .reduce item.number⟩
  | some s => if g.isTerminal s then (c.goto? state s).toList.map fun target => ⟨s, item, .shift target⟩ else []

inductive Asks (g : Grammar S) (c : Collection S) (lookaheads : List (Lookahead.Entry S)) (state : Nat) (item : Item S) :
    S → Action → Prop
  | shift {s : S} {target : Nat} : item.next? = some s → g.isTerminal s = true → c.goto? state s = some target →
      Asks g c lookaheads state item s (.shift target)
  | reduce {s : S} {symbols : List S} : item.next? = none → item.name ≠ startMark →
      Lookahead.find? lookaheads state item = some symbols → s ∈ symbols →
      Asks g c lookaheads state item s (.reduce item.number)
  | accept : item.next? = none → item.name = startMark → Asks g c lookaheads state item endMark .accept

lemma mem_asked : pr ∈ asked g c lookaheads state item ↔
    pr.item = item ∧ Asks g c lookaheads state item pr.symbol pr.action := by
  constructor
  · intro h
    unfold asked at h
    split at h
    · rename_i hnext
      split at h
      · rename_i hname
        obtain rfl := mem_singleton.mp h
        exact ⟨rfl, .accept hnext hname⟩
      · rename_i hname
        obtain ⟨s, hs, rfl⟩ := mem_map.mp h
        cases hfind : Lookahead.find? lookaheads state item with
        | none => simp [hfind] at hs
        | some symbols => exact ⟨rfl, .reduce hnext hname hfind (by simpa [hfind] using hs)⟩
    · rename_i s hnext
      split at h
      · rename_i hterm
        obtain ⟨target, htarget, rfl⟩ := mem_map.mp h
        exact ⟨rfl, .shift hnext hterm (Option.mem_toList.mp htarget)⟩
      · cases h
  · obtain ⟨s, i, a⟩ := pr
    rintro ⟨rfl, h⟩
    dsimp only at h
    unfold asked
    cases h with
    | shift hnext hterm hgoto => simp [hnext, hterm, hgoto]
    | reduce hnext hname hfind hs => simp [hnext, hname, hfind, hs]
    | accept hnext hname => simp [hnext, hname]

inductive Places (g : Grammar S) (state : Nat) (d : Draft S) : Proposal S → Draft S → Prop
  | shift {s : S} {item : Item S} {target : Nat} {d' : Draft S} : addShift g state item d s target = (d', none) →
      Places g state d ⟨s, item, .shift target⟩ d'
  | reduce {s : S} {item : Item S} {d' : Draft S} : addReduction g state item d s = (d', none) →
      Places g state d ⟨s, item, .reduce item.number⟩ d'
  | accept (item : Item S) : Places g state d ⟨endMark, item, .accept⟩ (d.enter endMark item .accept)

inductive Placed (g : Grammar S) (state : Nat) : List (Proposal S) → Draft S → Draft S → Prop
  | nil (d : Draft S) : Placed g state [] d d
  | cons {pr : Proposal S} {prs : List (Proposal S)} {d d₁ d' : Draft S} : Places g state d pr d₁ →
      Placed g state prs d₁ d' → Placed g state (pr :: prs) d d'

lemma placed_append : Placed g state (prs ++ more) d d' ↔ ∃ d₁, Placed g state prs d d₁ ∧ Placed g state more d₁ d' := by
  induction prs generalizing d with
  | nil =>
    refine ⟨fun h => ⟨d, .nil d, h⟩, ?_⟩
    rintro ⟨d₁, h, h'⟩
    cases h
    exact h'
  | cons pr prs ih =>
    constructor
    · intro h
      cases h with
      | cons hpr h =>
        obtain ⟨d₁, h₁, h₂⟩ := ih.mp h
        exact ⟨d₁, .cons hpr h₁, h₂⟩
    · rintro ⟨d₁, h, h'⟩
      cases h with
      | cons hpr h => exact .cons hpr (ih.mpr ⟨d₁, h, h'⟩)

lemma addReductions_iff {symbols : List S} : addReductions g state item symbols d = (d', none) ↔
    Placed g state (symbols.map fun s => ⟨s, item, .reduce item.number⟩) d d' := by
  induction symbols generalizing d with
  | nil =>
    constructor
    · intro h
      obtain ⟨rfl, -⟩ := Prod.mk.inj h
      exact .nil _
    · intro h
      cases h
      rfl
  | cons s symbols ih =>
    rw [addReductions]
    constructor
    · intro h
      split at h
      · cases (Prod.mk.inj h).2
      · rename_i d₁ heq
        exact .cons (.reduce heq) (ih.mp h)
    · intro h
      cases h with
      | cons hpr h =>
        cases hpr with
        | reduce heq =>
          rw [heq]
          exact ih.mpr h

def Found (lookaheads : List (Lookahead.Entry S)) (state : Nat) (item : Item S) : Prop :=
  item.next? = none → item.name ≠ startMark → ∃ symbols, Lookahead.find? lookaheads state item = some symbols

lemma addItem_iff : addItem g c lookaheads state item d = (d', none) ↔
    Found lookaheads state item ∧ Placed g state (asked g c lookaheads state item) d d' := by
  have hnil : ∀ {d d' : Draft S}, (d, (none : Option TableError)) = (d', none) ↔ Placed g state [] d d' := by
    intro d d'
    constructor
    · intro h
      obtain ⟨rfl, -⟩ := Prod.mk.inj h
      exact .nil _
    · intro h
      cases h
      rfl
  unfold addItem asked Found
  cases item.next? with
  | none =>
    by_cases hname : item.name = startMark
    · simp only [hname, ne_eq, not_true, false_implies, implies_true, true_and]
      constructor
      · intro h
        obtain ⟨rfl, -⟩ := Prod.mk.inj h
        exact .cons (.accept item) (.nil _)
      · intro h
        cases h with
        | cons hpr h =>
          cases hpr
          cases h
          rfl
    · cases hfind : Lookahead.find? lookaheads state item with
      | none => simp [hname]
      | some symbols => simpa [hname] using addReductions_iff
  | some s =>
    by_cases hterm : g.isTerminal s = true
    · cases hgoto : c.goto? state s with
      | none => simpa [hterm, hgoto] using hnil
      | some target =>
        simp only [hterm, if_true, hgoto, Option.toList_some, map_singleton, reduceCtorEq, false_implies, true_and]
        constructor
        · exact fun h => .cons (.shift h) (.nil _)
        · intro h
          cases h with
          | cons hpr h =>
            cases h
            cases hpr with
            | shift heq => exact heq
    · simpa [hterm] using hnil

theorem addItems_iff {items : List (Item S)} : addItems g c lookaheads state items d = (d', none) ↔
    (∀ i ∈ items, Found lookaheads state i) ∧ Placed g state (items.flatMap (asked g c lookaheads state)) d d' := by
  induction items generalizing d with
  | nil =>
    constructor
    · intro h
      obtain ⟨rfl, -⟩ := Prod.mk.inj h
      exact ⟨forall_mem_nil _, .nil _⟩
    · rintro ⟨-, h⟩
      cases h
      rfl
  | cons item items ih =>
    rw [forall_mem_cons, flatMap_cons, placed_append, addItems]
    constructor
    · intro h
      split at h
      · cases (Prod.mk.inj h).2
      · rename_i d₁ heq
        obtain ⟨hfound, hplaced⟩ := addItem_iff.mp heq
        obtain ⟨hrest, hplaced'⟩ := ih.mp h
        exact ⟨⟨hfound, hrest⟩, d₁, hplaced, hplaced'⟩
    · rintro ⟨⟨hfound, hrest⟩, d₁, hplaced, hplaced'⟩
      rw [addItem_iff.mpr ⟨hfound, hplaced⟩]
      exact ih.mpr ⟨hrest, hplaced'⟩

end Placed

section Settled

def settle (g : Grammar S) (t : S) : Option (Option Action) → Action → Option Action
  | some (some (.shift k)), .reduce n => (g.precedenceOf t).resolve (productionPrecedence g n) k n
  | some (some (.reduce n)), .shift k => (g.precedenceOf t).resolve (productionPrecedence g n) k n
  | some (some (.shift k)), .shift _ => some (.shift k)
  | some (some (.reduce m)), .reduce n => some (.reduce (if productionLine g n < productionLine g m then n else m))
  | _, a => some a

def Sets (d : Draft S) (s : S) (x : Option Action) (d' : Draft S) : Prop :=
  d'.actions.get? s = some x ∧ (∀ n, x = some (.reduce n) → ∃ o, d'.owners.get? s = some o ∧ o.number = n) ∧
    ∀ t, s ≠ t → d'.actions.get? t = d.actions.get? t ∧ d'.owners.get? t = d.owners.get? t

def Owned (d : Draft S) : Prop :=
  ∀ {t n}, d.actions.get? t = some (some (.reduce n)) → ∃ o, d.owners.get? t = some o ∧ o.number = n

lemma owned_empty : ({} : Draft S).Owned := fun h => by cases h

lemma sets_enter (ha : ∀ n, a = .reduce n → item.number = n) : d.Sets s (some a) (d.enter s item a) := by
  refine ⟨get?_insert_self _ _ _, fun n hn => ⟨item, get?_insert_self _ _ _, ?_⟩, fun t ht => ⟨?_, ?_⟩⟩
  · exact ha n (Option.some.inj hn)
  · exact get?_insert_of_ne _ _ (beq_eq_false_iff_ne.mpr ht)
  · exact get?_insert_of_ne _ _ (beq_eq_false_iff_ne.mpr ht)

lemma sets_refuse : d.Sets s none (d.refuse s) :=
  ⟨get?_insert_self _ _ _, fun _ h => (by cases h), fun _ ht =>
    ⟨get?_insert_of_ne _ _ (beq_eq_false_iff_ne.mpr ht), rfl⟩⟩

lemma Owned.sets_self (ho : d.Owned) (hx : d.actions.get? s = some x) : d.Sets s x d :=
  ⟨hx, fun _ hn => ho (hn ▸ hx), fun _ _ => ⟨rfl, rfl⟩⟩

lemma Owned.of_sets (ho : d.Owned) (h : d.Sets s x d') : d'.Owned := by
  intro t n hn
  by_cases hst : s = t
  · subst hst
    exact h.2.1 n (Option.some.inj (h.1.symm.trans hn))
  · rw [(h.2.2 t hst).1] at hn
    rw [(h.2.2 t hst).2]
    exact ho hn

def Notes (d : Draft S) (s : S) (d' : Draft S) : Prop :=
  (d'.shiftReduce = d.shiftReduce ∨ ∃ r, d'.shiftReduce = d.shiftReduce ++ [(s, r)]) ∧ d'.reduceReduce = d.reduceReduce

/-- How many more reductions by a production are counted than there are entries. -/
def excess (d : Draft S) (n : Nat) : Int :=
  d.reductions.getD n 0 - d.actions.values.count (some (.reduce n))

def weight (n : Nat) : Option (Option Action) → Int
  | some (some (.reduce m)) => if m = n then 1 else 0
  | _ => 0

def givenUp : Option (Option Action) → Option (Option Action) → List Nat
  | some (some (.reduce n)), some none => [n]
  | _, _ => []

def Tidy (d : Draft S) : Prop :=
  d.actions.keys.Nodup ∧ d.reductions.keys.Nodup

/-- The counts keep up with the entries, except that a reduction that gives way to an error is still counted. -/
def Tallies (d : Draft S) (s : S) (d' : Draft S) : Prop :=
  d.Tidy → d'.Tidy ∧ d'.proposals = d.proposals ∧
    ∀ n, d'.excess n = d.excess n + (givenUp (d.actions.get? s) (d'.actions.get? s)).count n

lemma tallies_self (d : Draft S) (s : S) : d.Tallies s d := by
  refine fun h => ⟨h, rfl, fun n => ?_⟩
  rcases d.actions.get? s with _ | _ | _ | _ | _ <;> simp [givenUp]

lemma count_toList (n : Nat) (x : Option (Option Action)) : (x.toList.count (some (.reduce n)) : Int) = weight n x := by
  rcases x with _ | _ | _ | m | _
  case some.some.reduce => by_cases hm : m = n <;> simp [weight, hm]
  all_goals simp [weight]

lemma tallies_insert (ha : d'.actions = d.actions.insert s x) (hp : d'.proposals = d.proposals)
    (hkeys : d.Tidy → d'.reductions.keys.Nodup) (hcount : ∀ n, d'.reductions.getD n 0 + weight n (d.actions.get? s) =
      d.reductions.getD n 0 + weight n (some x) + (givenUp (d.actions.get? s) (some x)).count n) : d.Tallies s d' := by
  refine fun h => ⟨⟨ha ▸ nodup_keys_insert h.1 s x, hkeys h⟩, hp, fun n => ?_⟩
  have hvalues := countP_values_insert h.1 s x (· == some (.reduce n))
  have hnew : ([x].count (some (.reduce n)) : Int) = weight n (some x) := count_toList n (some x)
  have hold := count_toList n (d.actions.get? s)
  have := hcount n
  rw [ha, get?_insert_self]
  simp only [excess, ha, List.count] at hvalues hnew hold this ⊢
  omega

lemma tallies_reduce (hs : ∀ m, d.actions.get? s ≠ some (some (.reduce m))) :
    d.Tallies s ((d.enter s item (.reduce item.number)).count item.number 1) := by
  refine tallies_insert rfl rfl (fun h => nodup_keys_insert h.2 _ _) fun n => ?_
  rcases he : d.actions.get? s with _ | _ | _ | m | _
  case some.some.reduce => exact absurd he (hs m)
  all_goals simp [enter, count, getD_update_add, weight, givenUp]

lemma tallies_shift (hs : (d.actions.get? s).join = none) : d.Tallies s (d.enter s item (.shift target)) := by
  refine tallies_insert rfl rfl (fun h => h.2) fun n => ?_
  rcases he : d.actions.get? s with _ | _ | _ <;> simp_all [enter, weight, givenUp]

lemma tallies_refuse (d : Draft S) (s : S) : d.Tallies s (d.refuse s) := by
  refine tallies_insert rfl rfl (fun h => h.2) fun n => ?_
  rcases d.actions.get? s with _ | _ | _ | m | _
  case some.some.reduce => by_cases hm : m = n <;> simp [refuse, weight, givenUp, hm]
  all_goals simp [refuse, weight, givenUp]

lemma reduceOverShift_spec (ho : d.Owned) (hs : d.actions.get? s = some (some (.shift target))) :
    d.Sets s ((g.precedenceOf s).resolve (productionPrecedence g item.number) target item.number)
      (reduceOverShift g d s item) ∧ d.Notes s (reduceOverShift g d s item) ∧ d.Tallies s (reduceOverShift g d s item) := by
  have htally : d.Tallies s ((d.enter s item (.reduce item.number)).count item.number 1) :=
    tallies_reduce fun m => by simp [hs]
  have henter : d.Sets s (some (.reduce item.number)) (d.enter s item (.reduce item.number)) :=
    sets_enter fun _ hn => Action.reduce.inj hn
  unfold reduceOverShift
  simp only [Bool.or_eq_true, Bool.and_eq_true, decide_eq_true_eq]
  split
  · rename_i hlower
    rw [resolve_reduce hlower]
    split
    · exact ⟨henter, ⟨.inr ⟨_, rfl⟩, rfl⟩, htally⟩
    · exact ⟨henter, ⟨.inl rfl, rfl⟩, htally⟩
  · rename_i hlower
    split
    · rename_i hequal
      rw [resolve_refuse hequal]
      exact ⟨sets_refuse, ⟨.inl rfl, rfl⟩, tallies_refuse d s⟩
    · rename_i hequal
      rw [resolve_shift ((resolve_cases _ _).resolve_right (not_or.mpr ⟨hlower, hequal⟩))]
      split
      · exact ⟨ho.sets_self hs, ⟨.inr ⟨_, rfl⟩, rfl⟩, tallies_self d s⟩
      · exact ⟨ho.sets_self hs, ⟨.inl rfl, rfl⟩, tallies_self d s⟩

lemma shiftOverReduce_spec (ho : d.Owned) {n : Nat} (hs : d.actions.get? s = some (some (.reduce n))) :
    d.Sets s ((g.precedenceOf s).resolve (productionPrecedence g n) target n) (shiftOverReduce g d s item target) ∧
      d.Notes s (shiftOverReduce g d s item target) ∧ d.Tallies s (shiftOverReduce g d s item target) := by
  obtain ⟨o, howner, rfl⟩ := ho hs
  have htally : d.Tallies s ((d.count o.number (-1)).enter s item (.shift target)) := by
    refine tallies_insert rfl rfl (fun h => nodup_keys_insert h.2 _ _) fun n => ?_
    simp only [hs, enter, count, getD_update_add, weight, givenUp, count_nil]
    split_ifs <;> omega
  have howner : d.owners.getD s item = o := by rw [Registry.getD, howner, Option.getD_some]
  have henter : d.Sets s (some (.shift target)) ((d.count o.number (-1)).enter s item (.shift target)) :=
    sets_enter (d := d.count _ _) fun _ hn => by cases hn
  unfold shiftOverReduce
  simp only [howner, Bool.or_eq_true, Bool.and_eq_true, decide_eq_true_eq]
  split
  · rename_i hhigher
    rw [resolve_shift hhigher]
    split
    · exact ⟨henter, ⟨.inr ⟨_, rfl⟩, rfl⟩, htally⟩
    · exact ⟨henter, ⟨.inl rfl, rfl⟩, htally⟩
  · rename_i hhigher
    split
    · rename_i hequal
      rw [resolve_refuse hequal]
      exact ⟨sets_refuse, ⟨.inl rfl, rfl⟩, tallies_refuse d s⟩
    · rename_i hequal
      rw [resolve_reduce (((resolve_cases _ _).resolve_left hhigher).resolve_right hequal)]
      split
      · exact ⟨ho.sets_self hs, ⟨.inr ⟨_, rfl⟩, rfl⟩, tallies_self d s⟩
      · exact ⟨ho.sets_self hs, ⟨.inl rfl, rfl⟩, tallies_self d s⟩

lemma reduceOverReduce_spec (ho : d.Owned) {m : Nat} (hs : d.actions.get? s = some (some (.reduce m))) :
    d.Sets s (some (.reduce (if productionLine g item.number < productionLine g m then item.number else m)))
      (reduceOverReduce g d s item m) ∧ (reduceOverReduce g d s item m).shiftReduce = d.shiftReduce ∧
    ((reduceOverReduce g d s item m).reduceReduce = d.reduceReduce ++ [(item.number, m)] ∨
      (reduceOverReduce g d s item m).reduceReduce = d.reduceReduce ++ [(m, item.number)]) ∧
    d.Tallies s (reduceOverReduce g d s item m) := by
  have htally : d.Tallies s (((d.enter s item (.reduce item.number)).count item.number 1).count m (-1)) := by
    refine tallies_insert rfl rfl (fun h => nodup_keys_insert (nodup_keys_insert h.2 _ _) _ _) fun n => ?_
    simp only [hs, enter, count, getD_update_add, weight, givenUp, count_nil]
    split_ifs <;> omega
  unfold reduceOverReduce
  by_cases hline : productionLine g item.number < productionLine g m
  · rw [if_pos hline, if_pos hline]
    exact ⟨sets_enter fun _ hn => Action.reduce.inj hn, rfl, .inl rfl, htally⟩
  · rw [if_neg hline, if_neg hline]
    exact ⟨ho.sets_self hs, rfl, .inr rfl, tallies_self d s⟩

inductive Clash : Option (Option Action) → Action → Prop
  | shift (k n : Nat) : Clash (some (some (.shift k))) (.reduce n)
  | reduce (n k : Nat) : Clash (some (some (.reduce n))) (.shift k)

structure Effect (g : Grammar S) (d : Draft S) (pr : Proposal S) (e : Option (Option Action)) (d' : Draft S) : Prop where
  sets : d.Sets pr.symbol (settle g pr.symbol e pr.action) d'
  shiftReduce : d'.shiftReduce = d.shiftReduce ∨ Clash e pr.action ∧ ∃ r, d'.shiftReduce = d.shiftReduce ++ [(pr.symbol, r)]
  reduceReduce : d'.reduceReduce = d.reduceReduce ∧ (∀ m n, e = some (some (.reduce m)) → pr.action ≠ .reduce n) ∨
    ∃ m n, e = some (some (.reduce m)) ∧ pr.action = .reduce n ∧
      (d'.reduceReduce = d.reduceReduce ++ [(n, m)] ∨ d'.reduceReduce = d.reduceReduce ++ [(m, n)])
  standing : e = some (some .accept) → pr.action = .accept
  tally : pr.action ≠ .accept → (d.propose pr.symbol pr.item pr.action).Tallies pr.symbol d'

variable {e : Option (Option Action)}

lemma effect_free (he : e = none ∨ e = some none) (hs : d.Sets pr.symbol (some pr.action) d')
    (hshift : d'.shiftReduce = d.shiftReduce) (hreduce : d'.reduceReduce = d.reduceReduce)
    (htally : (d.propose pr.symbol pr.item pr.action).Tallies pr.symbol d') : Effect g d pr e d' := by
  rcases he with rfl | rfl
  · exact ⟨hs, .inl hshift, .inl ⟨hreduce, fun _ _ h => by cases h⟩, fun h => (by cases h), fun _ => htally⟩
  · exact ⟨hs, .inl hshift, .inl ⟨hreduce, fun _ _ h => by cases h⟩, fun h => (by cases h), fun _ => htally⟩

theorem Places.effect (h : Places g state d pr d') (ho : d.Owned) : Effect g d pr (d.actions.get? pr.symbol) d' := by
  cases h with
  | accept item =>
    have hsettle : ∀ e, settle g endMark e .accept = some .accept := by
      rintro (_ | _ | _ | _ | _) <;> rfl
    refine ⟨?_, .inl rfl, .inl ⟨rfl, fun _ _ _ h => by cases h⟩, fun _ => rfl, fun h => absurd rfl h⟩
    rw [hsettle]
    exact sets_enter fun _ hn => by cases hn
  | @shift s item k d' heq =>
    have henter : d.Sets s (some (.shift k)) ((d.propose s item (.shift k)).enter s item (.shift k)) :=
      sets_enter (d := d.propose s item _) fun _ hn => by cases hn
    have hcurrent : (d.propose s item (.shift k)).current s = (d.actions.get? s).join := rfl
    simp only [addShift, hcurrent] at heq
    dsimp only
    rcases he : d.actions.get? s with _ | _ | k' | n | _ <;> rw [he] at heq <;> obtain ⟨rfl, hnone⟩ := Prod.mk.inj heq
    · exact effect_free (.inl rfl) henter rfl rfl (tallies_shift (congrArg Option.join he))
    · exact effect_free (.inr rfl) henter rfl rfl (tallies_shift (congrArg Option.join he))
    · exact ⟨ho.sets_self he, .inl rfl, .inl ⟨rfl, fun _ _ _ h => by cases h⟩, fun h => (by cases h), fun _ => tallies_self _ s⟩
    · obtain ⟨hsets, ⟨hshift, hreduce⟩, htally⟩ := shiftOverReduce_spec (d := d.propose s item (.shift k)) ho he
      exact ⟨hsets, hshift.imp_right fun hr => ⟨.reduce n k, hr⟩, .inl ⟨hreduce, fun _ _ _ h => by cases h⟩,
        fun h => (by cases h), fun _ => htally⟩
    · cases hnone
  | @reduce s item d' heq =>
    have henter : d.Sets s (some (.reduce item.number))
        ((d.propose s item (.reduce item.number)).enter s item (.reduce item.number)) :=
      sets_enter (d := d.propose s item _) fun _ hn => Action.reduce.inj hn
    have hcurrent : (d.propose s item (.reduce item.number)).current s = (d.actions.get? s).join := rfl
    simp only [addReduction, hcurrent] at heq
    dsimp only
    rcases he : d.actions.get? s with _ | _ | k | m | _ <;> rw [he] at heq <;> obtain ⟨rfl, hnone⟩ := Prod.mk.inj heq
    · exact effect_free (.inl rfl) henter rfl rfl (tallies_reduce fun m h => by cases he.symm.trans h)
    · exact effect_free (.inr rfl) henter rfl rfl (tallies_reduce fun m h => by cases he.symm.trans h)
    · obtain ⟨hsets, ⟨hshift, hreduce⟩, htally⟩ := reduceOverShift_spec (d := d.propose s item (.reduce item.number)) ho he
      exact ⟨hsets, hshift.imp_right fun hr => ⟨.shift k item.number, hr⟩, .inl ⟨hreduce, fun _ _ h => by cases h⟩,
        fun h => (by cases h), fun _ => htally⟩
    · obtain ⟨hsets, hshift, hreduce, htally⟩ := reduceOverReduce_spec (d := d.propose s item (.reduce item.number)) ho he
      exact ⟨hsets, .inl hshift, .inr ⟨m, item.number, rfl, rfl, hreduce⟩, fun h => (by cases h), fun _ => htally⟩
    · cases hnone

lemma settle_cases {b : Action} (h : settle g t e a = some b) : b = a ∨ e = some (some b) := by
  have hresolve : ∀ {k n}, (g.precedenceOf t).resolve (productionPrecedence g n) k n = some b →
      b = .shift k ∨ b = .reduce n := by
    intro k n h
    unfold Precedence.resolve at h
    split_ifs at h
    · exact .inl (Option.some.inj h).symm
    · exact .inr (Option.some.inj h).symm
  unfold settle at h
  split at h
  · rcases hresolve h with rfl | rfl
    · exact .inr rfl
    · exact .inl rfl
  · rcases hresolve h with rfl | rfl
    · exact .inl rfl
    · exact .inr rfl
  · exact .inr (congrArg some h)
  · obtain rfl := Option.some.inj h
    split
    · exact .inl rfl
    · exact .inr rfl
  · exact .inl (Option.some.inj h).symm

namespace Placed

variable (h : Placed g state prs d d') (ho : d.Owned)

include h ho

/-- The entry of a symbol is settled between the actions that are proposed before it. -/
theorem entry (t : S) : d'.actions.get? t = (prs.filter fun pr => pr.symbol = t).foldl
    (fun e pr => some (settle g t e pr.action)) (d.actions.get? t) := by
  induction h with
  | nil d => rfl
  | @cons pr prs d d₁ d' hpr _ ih =>
    have hsets := (hpr.effect ho).sets
    rw [ih (ho.of_sets hsets)]
    by_cases ht : pr.symbol = t
    · subst ht
      rw [filter_cons_of_pos (by simp), foldl_cons, hsets.1]
    · rw [filter_cons_of_neg (by simpa using ht), (hsets.2.2 t ht).1]

lemma proposed (ha : d'.actions.get? t = some (some a)) :
    d.actions.get? t = some (some a) ∨ ∃ pr ∈ prs, pr.symbol = t ∧ pr.action = a := by
  induction h with
  | nil d => exact .inl ha
  | @cons pr prs d d₁ d' hpr _ ih =>
    have hsets := (hpr.effect ho).sets
    rcases ih (ho.of_sets hsets) ha with hd₁ | ⟨pr', hmem, heq⟩
    · by_cases ht : pr.symbol = t
      · subst ht
        rw [hsets.1] at hd₁
        rcases settle_cases (Option.some.inj hd₁) with rfl | hd
        · exact .inr ⟨pr, mem_cons_self, rfl, rfl⟩
        · exact .inl hd
      · rw [(hsets.2.2 t ht).1] at hd₁
        exact .inl hd₁
    · exact .inr ⟨pr', mem_cons_of_mem _ hmem, heq⟩

end Placed

end Settled

def Silent (d : Draft S) : Prop :=
  d.shiftReduce = [] ∧ d.reduceReduce = []

lemma Effect.silent {e : Option (Option Action)} (h : Effect g d pr e d') (hs : d'.Silent) : d.Silent := by
  constructor
  · rcases h.shiftReduce with heq | ⟨-, r, heq⟩
    · exact heq ▸ hs.1
    · exact absurd (heq.symm.trans hs.1) (by simp)
  · rcases h.reduceReduce with ⟨heq, -⟩ | ⟨m, n, -, -, heq | heq⟩
    · exact heq ▸ hs.2
    · exact absurd (heq.symm.trans hs.2) (by simp)
    · exact absurd (heq.symm.trans hs.2) (by simp)

lemma Placed.silent (h : Placed g state prs d d') (ho : d.Owned) (hs : d'.Silent) : d.Silent := by
  induction h with
  | nil d => exact hs
  | cons hpr _ ih => exact (hpr.effect ho).silent (ih (ho.of_sets (hpr.effect ho).sets) hs)

end Draft

end LispKit
