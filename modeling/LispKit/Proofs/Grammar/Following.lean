import LispKit.Automaton.Table
import LispKit.Proofs.Grammar.Heads

/-! Following symbols are exact, except that the end follows the name of the first production and not the start symbol. -/

namespace LispKit.Grammar

open Vocabulary Lookahead List Registry

variable {S : Type} {u v : List S} {a s x : S}

section Places

variable [DecidableEq S] {g : Grammar S}

/-- The nonterminals of a production, each with the symbols after it. -/
def inside (g : Grammar S) : List S → List (S × List S)
  | [] => []
  | s :: rest => if g.isNonterminal s then (s, rest) :: inside g rest else inside g rest

lemma mem_inside {symbols : List S} :
    (a, v) ∈ g.inside symbols ↔ g.isNonterminal a = true ∧ ∃ u, symbols = u ++ a :: v := by
  induction symbols with
  | nil => simp [inside]
  | cons s symbols ih =>
    have hsplit : (∃ u, s :: symbols = u ++ a :: v) ↔ (a = s ∧ v = symbols) ∨ ∃ u, symbols = u ++ a :: v := by
      simp only [cons_eq_append_iff, List.cons.injEq]
      grind
    rw [inside, hsplit]
    split
    · rw [mem_cons, Prod.mk.injEq, ih]
      grind
    · rw [ih]
      grind

def places (g : Grammar S) : List (Production S × S × List S) :=
  g.productions.flatMap fun p => (g.inside p.symbols).map (p, ·)

lemma mem_places {p : Production S} :
    (p, a, v) ∈ g.places ↔ p ∈ g.productions ∧ g.isNonterminal a = true ∧ ∃ u, p.symbols = u ++ a :: v := by
  simp only [places, mem_flatMap, mem_map, Prod.mk.injEq, ← mem_inside]
  grind

end Places

variable [DecidableEq S] [Vocabulary S] {g : Grammar S} {first follow : S → List S} {t : Registry S (List S)}

/-- Following symbols that every production passes on to the nonterminals it has. -/
def Continued (g : Grammar S) (first follow : S → List S) : Prop :=
  ∀ {p a v}, (p, a, v) ∈ g.places →
    (∀ x, Heads first v x → x ∈ follow a) ∧ (Vanish first v → ∀ x ∈ follow p.name, x ∈ follow a)

lemma Continued.of_derives (h : g.Continued first follow) (hfirst : g.Saturated first) (hg : g.Definite)
    (hd : Derives (rulesOf g) [s] (u ++ a :: v)) (ha : g.isNonterminal a = true) :
    (∀ x, Heads first v x → x ∈ follow a) ∧ (Vanish first v → ∀ x ∈ follow s, x ∈ follow a) := by
  generalize hw : u ++ a :: v = w at hd
  induction hd generalizing u a v with
  | refl =>
    obtain ⟨-, rfl, rfl⟩ := append_cons_eq_singleton hw
    exact ⟨fun x hx => (by cases hx), fun _ _ => id⟩
  | tail _ hstep ih =>
    cases hstep with
    | rule u₀ v₀ hrule =>
      have hderives := Derives.of_rule hrule
      obtain ⟨pr, hpr, heq⟩ := mem_map.mp hrule
      obtain ⟨rfl, rfl⟩ := Prod.mk.inj heq
      rcases append_split hw.symm with ⟨rest, hleft, rfl⟩ | ⟨m, rfl, -⟩
      · rcases append_split hleft with ⟨m, rfl, rfl⟩ | ⟨m, hsymbols, -⟩
        · -- before what is rewritten: the rest of the form derives the new rest
          obtain ⟨hheads, hvanish⟩ := ih ha (append_assoc u (a :: m) _).symm
          have hrest : Derives (rulesOf g) (m ++ pr.name :: v₀) (m ++ pr.symbols ++ v₀) := by
            rw [append_assoc]
            exact (hderives.append_right v₀).append_left m
          obtain ⟨hback, hback'⟩ := hfirst.of_derives hrest
          exact ⟨fun x hx => hheads x (hback' x hx), fun hv => hvanish (hback hv)⟩
        · -- in what it is rewritten to: what follows it follows the rewritten symbol, if the rest can be left out
          obtain ⟨hheads, hvanish⟩ := ih (hg.symbol pr hpr).1 rfl
          obtain ⟨hinner, hlast⟩ := h (mem_places.mpr ⟨hpr, ha, m, hsymbols⟩)
          refine ⟨fun x hx => ?_, fun hv x hx => ?_⟩
          · rcases heads_append.mp hx with hx | ⟨hn, hx⟩
            · exact hinner x hx
            · exact hlast hn x (hheads x hx)
          · obtain ⟨hn, hv⟩ := forall_mem_append.mp hv
            exact hlast hn x (hvanish hv x hx)
      · -- after it
        exact ih (u := u₀ ++ pr.name :: m) ha (by rw [append_assoc, cons_append])

/-- Following symbols that can be derived: a terminal after a nonterminal in any form, the end where a form derived from
a given symbol ends. -/
def Reached (g : Grammar S) (s : S) (follow : S → List S) : Prop :=
  ∀ a, ∀ x ∈ follow a,
    (g.isTerminal x = true ∧ ∃ b u v, g.isNonterminal b = true ∧ Derives (rulesOf g) [b] (u ++ a :: x :: v)) ∨
    x = endMark ∧ ∃ u, Derives (rulesOf g) [s] (u ++ [a])

section Rounds

/-- What is added at one place: what can come first after the nonterminal, and if that may be nothing, what follows the
name of the production. -/
def followStep (first : S → List S) (t : Registry S (List S)) (place : Production S × S × List S) : Registry S (List S) :=
  let ahead := firstOf first place.2.2
  let t := add t place.2.1 (ahead.filter (· != emptyMark))
  if ahead.contains emptyMark then add t place.2.1 (t.getD place.1.name []) else t

lemma mem_followStep {p : Production S} {b : S} : x ∈ (followStep first t (p, a, v)).getD b [] ↔
    x ∈ t.getD b [] ∨ a = b ∧ (Heads first v x ∨ Vanish first v ∧ x ∈ t.getD p.name []) := by
  have hahead : x ∈ (firstOf first v).filter (· != emptyMark) ↔ Heads first v x := by
    rw [mem_filter, bne_iff_ne]
    refine ⟨fun h => (mem_firstOf_of_ne h.2).mp h.1, fun h => ⟨(mem_firstOf_of_ne h.ne_emptyMark).mpr h, h.ne_emptyMark⟩⟩
  have hempty : (firstOf first v).contains emptyMark = true ↔ Vanish first v := by
    rw [contains_eq_mem, decide_eq_true_iff, emptyMark_mem_firstOf]
  simp only [followStep]
  split
  · rename_i h
    rw [mem_add, mem_add, mem_add, hahead]
    grind
  · rename_i h
    rw [mem_add, hahead]
    grind

structure Following (g : Grammar S) (s : S) (t : Registry S (List S)) : Prop where
  tabled : Tabled g.nonterminals.keys g.pool t
  reached : g.Reached s (t.getD · [])
  last : endMark ∈ t.getD s []

lemma Following.step (hg : g.Definite) (hsound : g.Sound first) {place : Production S × S × List S} (hplace : place ∈ g.places)
    (h : g.Following s t) : g.Following s (followStep first t place) ∧ Grows t (followStep first t place) := by
  obtain ⟨p, a, v⟩ := place
  obtain ⟨hp, ha, u, hsymbols⟩ := mem_places.mp hplace
  have hrule : Derives (rulesOf g) [p.name] (u ++ a :: v) := hsymbols ▸ .of_rule (mem_map.mpr ⟨p, hp, rfl⟩)
  have hv : ∀ b ∈ v, g.IsSymbol b := fun b hb =>
    (hg.symbol p hp).2 b (hsymbols ▸ mem_append_right _ (mem_cons_of_mem _ hb))
  have hreached : g.Reached s ((followStep first t (p, a, v)).getD · []) := by
    intro b x hx
    rcases mem_followStep.mp hx with hx | ⟨rfl, hx | ⟨hvanish, hx⟩⟩
    · exact h.reached b x hx
    · obtain ⟨hx, w, hw⟩ := hsound.derives_cons hv hx
      refine .inl ⟨hx, p.name, u, w, (hg.symbol p hp).1, hrule.trans ?_⟩
      exact Derives.append_left (Derives.append_left hw [a]) u
    · have hstep : Derives (rulesOf g) [p.name] (u ++ [a]) := by
        have hnil := Derives.append_left (Derives.append_left (hsound.derives_nil hv hvanish) [a]) u
        exact hrule.trans hnil
      rcases h.reached p.name x hx with ⟨hx, b, u', v', hb, hd⟩ | ⟨rfl, u', hd⟩
      · have hnext : Derives (rulesOf g) (u' ++ p.name :: x :: v') (u' ++ u ++ a :: x :: v') := by
          simpa using (hstep.append_right (x :: v')).append_left u'
        exact .inl ⟨hx, b, u' ++ u, v', hb, hd.trans hnext⟩
      · have hnext := hstep.append_left u'
        rw [← append_assoc] at hnext
        exact .inr ⟨rfl, u' ++ u, hd.trans hnext⟩
  have hkey : a ∈ g.nonterminals.keys := (contains_iff_mem_keys _ _).mp ha
  have hpool : ∀ x ∈ (firstOf first v).filter (· != emptyMark), x ∈ g.pool := by
    intro x hx
    obtain ⟨hx, hne⟩ := mem_filter.mp hx
    have hterm := (hsound.derives_cons hv ((mem_firstOf_of_ne (bne_iff_ne.mp hne)).mp hx)).1
    exact mem_append_left _ ((contains_iff_mem_keys _ _).mp hterm)
  have hadd := h.tabled.add hkey hpool
  have hgrows := h.tabled.grows hkey ((firstOf first v).filter (· != emptyMark))
  have hboth : Tabled g.nonterminals.keys g.pool (followStep first t (p, a, v)) ∧ Grows t (followStep first t (p, a, v)) := by
    simp only [followStep]
    split
    · exact ⟨hadd.add hkey (hadd.within p.name), hgrows.trans (hadd.grows hkey _)⟩
    · exact ⟨hadd, hgrows⟩
  exact ⟨⟨hboth.1, hreached, mem_followStep.mpr (.inl h.last)⟩, hboth.2⟩

lemma followAt_eq {p : Production S} (hv : ∀ b ∈ v, g.IsSymbol b) (t : Registry S (List S)) :
    followAt { g with first := g.firsts } p a v t = .ok (followStep (g.firsts.getD · []) t (p, a, v)) := by
  have hfirst : firstOf? g.firsts v = .ok (firstOf (g.firsts.getD · []) v) := firstOf?_firsts hv
  have hlast : ((firstOf (g.firsts.getD · []) v).contains emptyMark || v.isEmpty) =
      (firstOf (g.firsts.getD · []) v).contains emptyMark := by
    cases v with
    | nil => simp [firstOf, firstOfFrom]
    | cons => simp
  simp only [followAt, hfirst, followStep, bind, Except.bind, hlast]
  split <;> rfl

lemma followAlong_eq {p : Production S} {symbols : List S} (hsymbols : ∀ b ∈ symbols, g.IsSymbol b)
    (t : Registry S (List S)) : followAlong { g with first := g.firsts } p symbols t =
      (none, ((g.inside symbols).map (p, ·)).foldl (followStep (g.firsts.getD · [])) t) := by
  induction symbols generalizing t with
  | nil => rfl
  | cons s rest ih =>
    obtain ⟨-, hrest⟩ := forall_mem_cons.mp hsymbols
    rw [followAlong, inside]
    by_cases hs : g.isNonterminal s = true
    · have hs' : isNonterminal { g with first := g.firsts } s = true := hs
      rw [if_pos hs, if_pos hs', followAt_eq hrest]
      exact ih hrest _
    · have hs' : ¬ isNonterminal { g with first := g.firsts } s = true := hs
      rw [if_neg hs, if_neg hs']
      exact ih hrest t

def followPass (g : Grammar S) (t : Registry S (List S)) : Registry S (List S) :=
  g.places.foldl (followStep (g.firsts.getD · [])) t

lemma followRound_eq (hg : g.Definite) (t : Registry S (List S)) :
    followRound { g with first := g.firsts } g.productions t = (none, g.followPass t) := by
  have hround : ∀ ps : List (Production S), (∀ p ∈ ps, ∀ b ∈ p.symbols, g.IsSymbol b) → ∀ t,
      followRound { g with first := g.firsts } ps t =
        (none, (ps.flatMap fun p => (g.inside p.symbols).map (p, ·)).foldl (followStep (g.firsts.getD · [])) t) := by
    intro ps
    induction ps with
    | nil => exact fun _ _ => rfl
    | cons p ps ih =>
      intro hps t
      obtain ⟨hp, hps⟩ := forall_mem_cons.mp hps
      rw [followRound, followAlong_eq hp, flatMap_cons, foldl_append]
      exact ih hps _
  exact hround g.productions (fun p hp => (hg.symbol p hp).2) t

lemma following_followStart (hs : g.isNonterminal s = true) : g.Following s (g.followStart s) := by
  have hblank : ∀ k, g.followBlank.getD k [] = [] := by
    intro k
    rw [Registry.getD, Registry.get?]
    cases hfind : g.followBlank.entries.find? fun e => e.1 == k with
    | none => rfl
    | some e =>
      obtain ⟨_, -, rfl⟩ := mem_map.mp (mem_of_find?_eq_some hfind)
      rfl
  have hget : ∀ k, (g.followStart s).getD k [] = if s = k then [endMark] else [] := by
    intro k
    rw [followStart, getD_insert, hblank]
  have hkeys : g.followBlank.keys = g.nonterminals.keys := by
    simp [followBlank, Registry.keys]
  refine ⟨⟨?_, entry_insert fun e he => ?_, fun k => ?_, fun k x hx => ?_⟩, fun a x hx => ?_, ?_⟩
  · rw [followStart, keys_insert, hkeys, if_pos]
    rw [contains_iff_mem_keys, hkeys]
    exact (contains_iff_mem_keys _ _).mp hs
  · obtain ⟨k, -, rfl⟩ := mem_map.mp he
    exact (hblank k).symm
  · rw [hget]
    split <;> simp
  · rw [hget] at hx
    split at hx
    · rw [mem_singleton.mp hx]
      simp [pool]
    · cases hx
  · dsimp only at hx
    rw [hget] at hx
    split at hx
    · rename_i hsa
      subst hsa
      exact .inr ⟨mem_singleton.mp hx, [], .refl⟩
    · cases hx
  · rw [hget, if_pos rfl]
    exact mem_singleton.mpr rfl

/-- The following symbols, with the end after a given symbol. -/
def follows (g : Grammar S) (s : S) : Registry S (List S) :=
  saturate g.followPass g.roundLimit (g.followPass (g.followStart s))

lemma following_follows (hg : g.Definite) (hs : g.isNonterminal s = true) :
    g.Following s (g.follows s) ∧ g.Continued (g.firsts.getD · []) ((g.follows s).getD · []) := by
  have hround : ∀ t, g.Following s t → g.Following s (g.followPass t) ∧ Grows t (g.followPass t) ∧
      (volume (g.followPass t) = volume t → ∀ place ∈ g.places, followStep (g.firsts.getD · []) t place = t) :=
    fun t ht => foldl_grows (fun place hplace _ h => h.step hg (finding_firsts hg).1.sound hplace) ht
  refine holds_saturate (C := fun t => g.Continued (g.firsts.getD · []) (t.getD · []))
    (fun t ht => ⟨(hround t ht).1, (hround t ht).2.1⟩) (fun t ht => ht.tabled.volume_le)
    (fun t ht hfixed p a v hplace => ?_) g.roundLimit (hround _ (following_followStart hs)).1 ?_
  · have hnone := (hround t ht).2.2 (congrArg volume hfixed) _ hplace
    refine ⟨fun x hx => ?_, fun hv x hx => ?_⟩
    · exact hnone ▸ mem_followStep.mpr (.inr ⟨rfl, .inl hx⟩)
    · exact hnone ▸ mem_followStep.mpr (.inr ⟨rfl, .inr ⟨hv, hx⟩⟩)
  · have hkeys : g.nonterminals.keys.length ≤ g.terminals.entries.length + g.nonterminals.entries.length + 2 := by
      simp [Registry.keys]
      omega
    have hpool : g.pool.length ≤ g.terminals.entries.length + g.nonterminals.entries.length + 2 := by
      simp [pool, Registry.keys]
    have hle := Nat.mul_le_mul hkeys hpool
    rw [roundLimit]
    omega

end Rounds

lemma computeFollow_eq {p : Production S} (hg : g.Definite) (hfollow : g.follow = {}) (hp : g.productions.head? = some p) :
    computeFollow { g with first := g.firsts } none = (.ok (), { g with first := g.firsts, follow := g.follows p.name }) := by
  have hempty : g.firsts.isEmpty = false := by
    have hmark : g.firsts.contains endMark = true := contains_firsts (.inr (.inr rfl))
    cases hentries : g.firsts.entries with
    | nil => simp [Registry.contains, hentries] at hmark
    | cons _ _ => simp [Registry.isEmpty, hentries]
  obtain ⟨g', hg'⟩ : ∃ g', g' = { g with first := g.firsts } := ⟨_, rfl⟩
  have hblank : (!g'.follow.isEmpty) = false := by
    rw [hg', hfollow]
    rfl
  have hfirst : g'.first.isEmpty = false := hg' ▸ hempty
  have hhead : (none : Option S).orElse (fun _ => g'.productions.head?.map Production.name) = some p.name := by
    rw [hg', hp]
    rfl
  have hround : ∀ t, followRound g' g'.productions t = (none, g.followPass t) := by
    rw [hg']
    exact followRound_eq hg
  rw [← hg']
  simp only [computeFollow, hblank, hfirst, hhead, hround, Bool.false_eq_true, if_false]
  rw [hg']
  rfl

/-- What follows a symbol in the forms derived from one symbol, and where those derived from another end. -/
structure FollowOf (g : Grammar S) (s e a : S) (found : List S) : Prop where
  nodup : found.Nodup
  element : ∀ x ∈ found, x = endMark ∨ g.isTerminal x = true
  terminal : ∀ x, g.isTerminal x = true → (x ∈ found ↔ ∃ u v, Derives (rulesOf g) [s] (u ++ a :: x :: v))
  last : endMark ∈ found ↔ ∃ u, Derives (rulesOf g) [e] (u ++ [a])

lemma follows_exact {e : S} (hg : g.Definite) (he : g.isNonterminal e = true) (ha : g.isNonterminal a = true)
    (hreached : ∀ b, g.isNonterminal b = true → ∃ w, Derives (rulesOf g) [s] w ∧ b ∈ w) :
    g.FollowOf s e a ((g.follows e).getD a []) := by
  obtain ⟨hfinding, -, hsaturated⟩ := finding_firsts hg
  obtain ⟨hfollowing, hcontinued⟩ := following_follows hg he
  have hmark : g.isTerminal endMark ≠ true := fun h => (hg.unmarked endMark (.inl h)).2 rfl
  refine ⟨hfollowing.tabled.nodup a, fun x hx => ?_, fun x hx => ⟨fun hmem => ?_, ?_⟩, ⟨fun hmem => ?_, ?_⟩⟩
  · exact (hfollowing.reached a x hx).elim (fun h => .inr h.1) fun h => .inl h.1
  · rcases hfollowing.reached a x hmem with ⟨-, b, u, v, hb, hd⟩ | ⟨rfl, -⟩
    · obtain ⟨w, hw, hmem⟩ := hreached b hb
      obtain ⟨y, z, rfl⟩ := append_of_mem hmem
      have hform : Derives (rulesOf g) (y ++ b :: z) (y ++ u ++ a :: x :: (v ++ z)) := by
        simpa using (hd.append_right z).append_left y
      exact ⟨y ++ u, v ++ z, hw.trans hform⟩
    · exact absurd hx hmark
  · rintro ⟨u, v, hd⟩
    exact (hcontinued.of_derives hsaturated hg hd ha).1 x (.here (hfinding.terminal x hx) (hg.unmarked x (.inl hx)).1)
  · exact (hfollowing.reached a _ hmem).elim (fun h => absurd h.1 hmark) And.right
  · rintro ⟨u, hd⟩
    exact (hcontinued.of_derives hsaturated hg hd ha).2 (forall_mem_nil _) _ hfollowing.last

section Declared

open Declaration

variable {ts : List String} {ds : List Declaration} {start : Option String} {g₀ g : Grammar String}

/-- Once a table has been built for a grammar without useless and ambiguous names, the following symbols are those of the
forms derived from the start symbol, but the end follows where the forms derived from the name of the first production
end, whatever the start symbol is. -/
theorem follow_exact (hds : performAll (ofTerminals ts) ds = some g₀) (hstart : declareStart g₀ start = .ok g)
    (hdefined : ∀ s, g.isNonterminal s = true → g.isDefined s = true)
    (hapart : ∀ s, g.isTerminal s = true → g.isNonterminal s = false)
    (hunmarked : ∀ s, g.IsSymbol s → s ≠ emptyMark ∧ s ≠ endMark)
    (hreached : ∀ s ∈ g.start, ∀ a, g.isNonterminal a = true → ∃ w, Derives (rulesOf g) [s] w ∧ a ∈ w) :
    ∃ s p, g.start = some s ∧ g.productions.head? = some p ∧ ∀ a, g.isNonterminal a = true →
      g.FollowOf s p.name a (g.buildTable.2.2.follow.getD a []) := by
  have hof : ofDeclarations ts ds (some start) = some g := by simp [ofDeclarations, hds, hstart]
  obtain ⟨hg, hfirst, hfollow⟩ := definite_ofDeclarations hof hdefined hapart hunmarked
  obtain ⟨s, q, hs, hq, hproductions⟩ : ∃ s q, g.start = some s ∧ g.augmented = some q ∧ g.productions ≠ [] := by
    simp only [declareStart] at hstart
    split at hstart
    · cases hstart
    · rename_i s _
      split at hstart
      · rename_i hnon
        obtain rfl := Except.ok.inj hstart
        obtain ⟨pr, hpr, -⟩ := (registered_performAll (Registered.ofTerminals ts) hds).1.defined
          (hdefined s ((isNonterminal_setStart hnon).mpr hnon))
        exact ⟨s, _, rfl, rfl, ne_nil_of_mem hpr⟩
      · cases hstart
  have hp := head?_eq_some_head hproductions
  refine ⟨s, _, hs, hp, fun a ha => ?_⟩
  have htable : g.buildTable.2.2.follow = g.follows (g.productions.head hproductions).name := by
    obtain ⟨withFirst, hwith, hrest⟩ : ∃ withFirst, g.computeFirst = (.ok (), withFirst) ∧
        withFirst.computeFollow none = (.ok (), { g with first := g.firsts, follow := g.follows _ }) :=
      ⟨_, computeFirst_ok hfirst fun s hs => hdefined s ((contains_iff_mem_keys _ _).mpr hs), computeFollow_eq hg hfollow hp⟩
    simp only [buildTable, hq, hwith, hrest]
    split <;> rfl
  rw [htable]
  exact follows_exact hg (hg.symbol _ (mem_of_mem_head? hp)).1 ha (hreached s hs)

/-- The first production is not one of the start symbol. -/
def inner : List Declaration :=
  [.production "t" ["A"] ⟨"inner", 1⟩ "", .production "s" ["t", "B"] ⟨"inner", 2⟩ ""]

def innerFirst : Grammar String :=
  (performAll (ofTerminals ["A", "B"]) inner).get (by decide +kernel)

theorem follow_exact_innerFirst : (∃ u v, Derives (rulesOf (innerFirst.setStart "s")) ["s"] (u ++ "t" :: "B" :: v)) ∧
    ¬ ∃ u, Derives (rulesOf (innerFirst.setStart "s")) ["t"] (u ++ ["s"]) := by
  have hds : performAll (ofTerminals ["A", "B"]) inner = some innerFirst := (Option.some_get _).symm
  have hs : innerFirst.isNonterminal "s" = true := by decide +kernel
  have hstart : declareStart innerFirst (some "s") = .ok (innerFirst.setStart "s") := by simp [declareStart, hs]
  have hnon : ∀ s ∈ (innerFirst.setStart "s").nonterminals.keys,
      (innerFirst.setStart "s").isDefined s = true ∧ (s = "s" ∨ s = "t") ∧ s ≠ emptyMark ∧ s ≠ endMark := by
    decide +kernel
  have hterm : ∀ s ∈ (innerFirst.setStart "s").terminals.keys,
      (innerFirst.setStart "s").isNonterminal s = false ∧ s ≠ emptyMark ∧ s ≠ endMark := by
    decide +kernel
  have hmem (r : Registry String (List Nat)) {s} (h : r.contains s = true) := (contains_iff_mem_keys _ _).mp h
  have hform : Derives (rulesOf (innerFirst.setStart "s")) ["s"] ["t", "B"] := .of_rule (by decide +kernel)
  obtain ⟨s, p, hs, hp, hexact⟩ := follow_exact hds hstart (fun s hs => (hnon s (hmem _ hs)).1)
    (fun s hs => (hterm s (hmem _ hs)).1)
    (fun s hs => hs.elim (fun hs => (hterm s (hmem _ hs)).2) fun hs => (hnon s (hmem _ hs)).2.2) (by
      intro s hs a ha
      obtain rfl := Option.some.inj hs
      rcases (hnon a (hmem _ ha)).2.1 with rfl | rfl
      · exact ⟨_, .refl, mem_singleton.mpr rfl⟩
      · exact ⟨_, hform, mem_cons_self⟩)
  obtain rfl := Option.some.inj hs
  have hname : (innerFirst.setStart "s").productions.head?.map Production.name = some "t" := by decide +kernel
  rw [hp] at hname
  have hname : p.name = "t" := Option.some.inj hname
  rw [hname] at hexact
  exact ⟨((hexact "t" (by decide +kernel)).terminal "B" (by decide +kernel)).mp (by decide +kernel),
    fun h => absurd ((hexact "s" (by decide +kernel)).last.mpr h) (by decide +kernel)⟩

/-- The start symbol itself is a form that ends in it, but the end does not follow it. -/
theorem end_not_after_start : Derives (rulesOf (innerFirst.setStart "s")) ["s"] ([] ++ ["s"]) ∧
    (innerFirst.setStart "s").buildTable.2.2.follow.getD "s" [] = [] :=
  ⟨.refl, by decide +kernel⟩

end Declared

end LispKit.Grammar
