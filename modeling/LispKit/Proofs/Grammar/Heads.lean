import LispKit.Proofs.Grammar.Saturate
import LispKit.Proofs.Grammar.Useless

/-! First symbols are exact: they are the terminals that a derived form can begin with, and the mark of what derives
nothing. -/

namespace LispKit.Grammar

open Vocabulary Lookahead List Registry

variable {S : Type} [DecidableEq S] [Vocabulary S] {g : Grammar S} {first : S → List S} {u v symbols : List S} {s x : S}

def Vanish (first : S → List S) (symbols : List S) : Prop :=
  ∀ s ∈ symbols, emptyMark ∈ first s

inductive Heads (first : S → List S) : List S → S → Prop
  | here {s x : S} {rest : List S} : x ∈ first s → x ≠ emptyMark → Heads first (s :: rest) x
  | later {s x : S} {rest : List S} : emptyMark ∈ first s → Heads first rest x → Heads first (s :: rest) x

omit [DecidableEq S] in
lemma heads_append : Heads first (u ++ v) x ↔ Heads first u x ∨ Vanish first u ∧ Heads first v x := by
  induction u with
  | nil =>
    refine ⟨fun h => .inr ⟨forall_mem_nil _, h⟩, ?_⟩
    rintro (h | h)
    · cases h
    · exact h.2
  | cons s u ih =>
    rw [Vanish, forall_mem_cons]
    constructor
    · rintro (⟨hx, hne⟩ | ⟨hs, h⟩)
      · exact .inl (.here hx hne)
      · exact (ih.mp h).imp (.later hs) fun h => ⟨⟨hs, h.1⟩, h.2⟩
    · rintro ((⟨hx, hne⟩ | ⟨hs, h⟩) | ⟨⟨hs, hu⟩, h⟩)
      · exact .here hx hne
      · exact .later hs (ih.mpr (.inl h))
      · exact .later hs (ih.mpr (.inr ⟨hu, h⟩))

omit [DecidableEq S] in
lemma Heads.ne_emptyMark (h : Heads first symbols x) : x ≠ emptyMark := by
  induction h with
  | here _ hne => exact hne
  | later _ _ ih => exact ih

lemma mem_firstOfFrom {found : List S} : x ∈ firstOfFrom first found symbols ↔
    x ∈ found ∨ x = emptyMark ∧ Vanish first symbols ∨ Heads first symbols x := by
  induction symbols generalizing found with
  | nil =>
    rw [firstOfFrom, mem_append, mem_singleton]
    refine or_congr_right ⟨fun h => .inl ⟨h, forall_mem_nil _⟩, ?_⟩
    rintro (h | h)
    · exact h.1
    · cases h
  | cons s symbols ih =>
    have hhere : x ∈ merge found ((first s).filter (· != emptyMark)) ↔ x ∈ found ∨ x ∈ first s ∧ x ≠ emptyMark := by
      rw [mem_merge, mem_filter, bne_iff_ne]
    have hheads : Heads first (s :: symbols) x ↔ x ∈ first s ∧ x ≠ emptyMark ∨ emptyMark ∈ first s ∧ Heads first symbols x := by
      refine ⟨?_, fun h => h.elim (fun h => .here h.1 h.2) fun h => .later h.1 h.2⟩
      rintro (⟨hx, hne⟩ | ⟨hs, h⟩)
      · exact .inl ⟨hx, hne⟩
      · exact .inr ⟨hs, h⟩
    rw [firstOfFrom, hheads, Vanish, forall_mem_cons]
    split
    · rename_i hempty
      rw [contains_iff_mem] at hempty
      rw [ih, hhere, Vanish]
      grind
    · rename_i hempty
      rw [contains_iff_mem] at hempty
      rw [hhere]
      grind

lemma mem_firstOf : x ∈ firstOf first symbols ↔ x = emptyMark ∧ Vanish first symbols ∨ Heads first symbols x := by
  rw [firstOf, mem_firstOfFrom]
  simp

lemma emptyMark_mem_firstOf : emptyMark ∈ firstOf first symbols ↔ Vanish first symbols := by
  rw [mem_firstOf]
  exact ⟨fun h => h.elim And.right fun h => (h.ne_emptyMark rfl).elim, fun h => .inl ⟨rfl, h⟩⟩

lemma mem_firstOf_of_ne (hx : x ≠ emptyMark) : x ∈ firstOf first symbols ↔ Heads first symbols x := by
  rw [mem_firstOf]
  simp [hx]

lemma nodup_firstOf (first : S → List S) (symbols : List S) : (firstOf first symbols).Nodup := by
  have hfrom : ∀ (symbols found : List S), found.Nodup → emptyMark ∉ found → (firstOfFrom first found symbols).Nodup := by
    intro symbols
    induction symbols with
    | nil =>
      intro found hfound hempty
      rw [firstOfFrom, ← concat_eq_append, nodup_concat]
      exact ⟨hempty, hfound⟩
    | cons s symbols ih =>
      intro found hfound hempty
      rw [firstOfFrom]
      split
      · refine ih _ (nodup_merge hfound) ?_
        simp [mem_merge, hempty]
      · exact nodup_merge hfound
  exact hfrom symbols [] nodup_nil not_mem_nil

structure Saturated (g : Grammar S) (first : S → List S) : Prop where
  vanish : ∀ pr ∈ g.productions, Vanish first pr.symbols → emptyMark ∈ first pr.name
  heads : ∀ pr ∈ g.productions, ∀ x, Heads first pr.symbols x → x ∈ first pr.name

omit [DecidableEq S] in
lemma Saturated.of_derives (h : g.Saturated first) (hderives : Derives (rulesOf g) u v) :
    (Vanish first v → Vanish first u) ∧ ∀ x, Heads first v x → Heads first u x := by
  induction hderives using Relation.ReflTransGen.head_induction_on with
  | refl => exact ⟨id, fun _ => id⟩
  | head hstep _ ih =>
    cases hstep with
    | rule u w hrule =>
      obtain ⟨pr, hpr, heq⟩ := mem_map.mp hrule
      obtain ⟨rfl, rfl⟩ := Prod.mk.inj heq
      refine ⟨fun hv => ?_, fun x hx => ?_⟩
      · have hvanish := ih.1 hv
        simp only [Vanish, forall_mem_append, forall_mem_cons] at hvanish ⊢
        exact ⟨hvanish.1.1, h.vanish pr hpr hvanish.1.2, hvanish.2⟩
      · have hheads := ih.2 x hx
        rw [append_assoc, heads_append, heads_append] at hheads
        rw [heads_append]
        refine hheads.imp_right fun ⟨hu, hrest⟩ => ⟨hu, ?_⟩
        rcases hrest with hrest | ⟨hsymbols, hrest⟩
        · exact .here (h.heads pr hpr x hrest) hrest.ne_emptyMark
        · exact .later (h.vanish pr hpr hsymbols) hrest

def IsSymbol (g : Grammar S) (s : S) : Prop :=
  g.isTerminal s = true ∨ g.isNonterminal s = true

structure Sound (g : Grammar S) (first : S → List S) : Prop where
  vanish : ∀ s, g.IsSymbol s → emptyMark ∈ first s → Derives (rulesOf g) [s] []
  heads : ∀ s, g.IsSymbol s → ∀ x ∈ first s, x ≠ emptyMark → g.isTerminal x = true ∧ ∃ w, Derives (rulesOf g) [s] (x :: w)

namespace Sound

variable (h : g.Sound first) (hsymbols : ∀ s ∈ symbols, g.IsSymbol s)

include h hsymbols

lemma derives_nil (hv : Vanish first symbols) : Derives (rulesOf g) symbols [] := by
  obtain ⟨w, hw, hd⟩ := Derives.exists_of_forall (P := fun _ => False) fun s hs =>
    ⟨[], forall_mem_nil _, h.vanish s (hsymbols s hs) (hv s hs)⟩
  rwa [eq_nil_iff_forall_not_mem.mpr hw] at hd

lemma derives_cons (hx : Heads first symbols x) : g.isTerminal x = true ∧ ∃ w, Derives (rulesOf g) symbols (x :: w) := by
  induction hx with
  | here hx hne =>
    obtain ⟨hterm, w, hw⟩ := h.heads _ (hsymbols _ mem_cons_self) _ hx hne
    exact ⟨hterm, _, hw.append_right _⟩
  | later hs _ ih =>
    obtain ⟨hk, hrest⟩ := forall_mem_cons.mp hsymbols
    obtain ⟨hterm, w, hw⟩ := ih hrest
    exact ⟨hterm, w, (h.vanish _ hk hs).append hw⟩

end Sound

/-- A grammar whose first and following symbols mean something: every nonterminal has productions, no terminal is one,
and no symbol is a mark. -/
structure Definite (g : Grammar S) : Prop where
  numbered : g.Numbered
  symbol : ∀ pr ∈ g.productions, g.isNonterminal pr.name = true ∧ ∀ s ∈ pr.symbols, g.IsSymbol s
  defined : ∀ s, g.isNonterminal s = true → g.isDefined s = true
  apart : ∀ s, g.isTerminal s = true → g.isNonterminal s = false
  unmarked : ∀ s, g.IsSymbol s → s ≠ emptyMark ∧ s ≠ endMark

section Start

lemma getD_firstStart (s : S) : g.firstStart.getD s [] =
    if s ∈ g.nonterminals.keys then [] else if endMark = s then [endMark] else if s ∈ g.terminals.keys then [s] else [] := by
  rw [firstStart, getD_foldl_insert, getD_insert, getD_foldl_insert]
  rfl

omit [Vocabulary S] in
lemma entry_foldl_insert (ks : List S) (f : S → List S) {t : Registry S (List S)} (h : ∀ e ∈ t.entries, e.2 = t.getD e.1 []) :
    ∀ e ∈ (ks.foldl (fun r k => r.insert k (f k)) t).entries, e.2 = (ks.foldl (fun r k => r.insert k (f k)) t).getD e.1 [] := by
  induction ks generalizing t with
  | nil => exact h
  | cons k ks ih => exact ih (entry_insert h)

omit [Vocabulary S] in
lemma length_foldl_insert (ks : List S) (f : S → List S) (t : Registry S (List S)) :
    (ks.foldl (fun r k => r.insert k (f k)) t).keys.length ≤ t.keys.length + ks.length := by
  induction ks generalizing t with
  | nil => exact Nat.le_refl _
  | cons k ks ih =>
    have hinsert : (t.insert k (f k)).keys.length ≤ t.keys.length + 1 := by
      rw [keys_insert]
      split <;> simp
    have hrest := ih (t.insert k (f k))
    rw [foldl_cons, length_cons]
    omega

end Start

section Rounds

def pool (g : Grammar S) : List S :=
  g.terminals.keys ++ [endMark, emptyMark]

structure Finding (g : Grammar S) (t : Registry S (List S)) : Prop where
  tabled : Tabled g.firstStart.keys g.pool t
  sound : g.Sound (t.getD · [])
  terminal : ∀ a, g.isTerminal a = true → a ∈ t.getD a []

variable {t : Registry S (List S)} {pr : Production S}

lemma Finding.firstAt (hg : g.Definite) (h : g.Finding t) (hpr : pr ∈ g.productions) :
    g.Finding (firstAt t pr) ∧ Grows t (firstAt t pr) := by
  have hkey : pr.name ∈ g.firstStart.keys :=
    (contains_iff_mem_keys _ _).mp (contains_firstStart (.inr (.inl (hg.symbol pr hpr).1)))
  have hrule : Derives (rulesOf g) [pr.name] pr.symbols := .of_rule (mem_map.mpr ⟨pr, hpr, rfl⟩)
  have hknown := (hg.symbol pr hpr).2
  have hpool : ∀ x ∈ firstOf (t.getD · []) pr.symbols, x ∈ g.pool := by
    intro x hx
    rcases mem_firstOf.mp hx with ⟨rfl, -⟩ | hx
    · simp [pool]
    · have hterm := (h.sound.derives_cons hknown hx).1
      exact mem_append_left _ ((contains_iff_mem_keys _ _).mp hterm)
  refine ⟨⟨h.tabled.add hkey hpool, ⟨?_, ?_⟩, fun a ha => mem_add.mpr (.inl (h.terminal a ha))⟩, h.tabled.grows hkey _⟩
  · intro s hs hmem
    rcases mem_add.mp hmem with hold | ⟨rfl, hnew⟩
    · exact h.sound.vanish s hs hold
    · exact hrule.trans (h.sound.derives_nil hknown (emptyMark_mem_firstOf.mp hnew))
  · intro s hs x hmem hne
    rcases mem_add.mp hmem with hold | ⟨rfl, hnew⟩
    · exact h.sound.heads s hs x hold hne
    · obtain ⟨hterm, w, hw⟩ := h.sound.derives_cons hknown ((mem_firstOf_of_ne hne).mp hnew)
      exact ⟨hterm, w, hrule.trans hw⟩

lemma finding_firstStart (hg : g.Definite) : g.Finding g.firstStart := by
  have hterm : ∀ {s}, g.isTerminal s = true → g.firstStart.getD s [] = [s] := by
    intro s hs
    have hmem := (contains_iff_mem_keys _ _).mp hs
    have hnon : s ∉ g.nonterminals.keys := fun hn => by
      cases (hg.apart s hs).symm.trans ((contains_iff_mem_keys _ _).mpr hn)
    rw [getD_firstStart, if_neg hnon, if_neg (hg.unmarked s (.inl hs)).2.symm, if_pos hmem]
  have hnon : ∀ {s}, g.isNonterminal s = true → g.firstStart.getD s [] = [] := fun hs => by
    rw [getD_firstStart, if_pos ((contains_iff_mem_keys _ _).mp hs)]
  refine ⟨⟨rfl, ?_, fun k => ?_, fun k x hx => ?_⟩, ⟨?_, ?_⟩, fun a ha => by rw [hterm ha]; exact mem_singleton.mpr rfl⟩
  · exact entry_foldl_insert _ _ (entry_insert (entry_foldl_insert _ _ (forall_mem_nil _)))
  · rw [getD_firstStart]
    split_ifs <;> simp
  · rw [getD_firstStart] at hx
    split_ifs at hx with _ _ hk
    · cases hx
    · rw [mem_singleton.mp hx]
      simp [pool]
    · rw [mem_singleton.mp hx]
      exact mem_append_left _ hk
    · cases hx
  · rintro s (hs | hs) hmem
    · rw [hterm hs, mem_singleton] at hmem
      exact absurd hmem.symm (hg.unmarked s (.inl hs)).1
    · rw [hnon hs] at hmem
      cases hmem
  · rintro s (hs | hs) x hmem -
    · rw [hterm hs, mem_singleton] at hmem
      subst hmem
      exact ⟨hs, [], .refl⟩
    · rw [hnon hs] at hmem
      cases hmem

lemma mem_productions_round (hg : g.Definite) :
    pr ∈ g.nonterminals.keys.flatMap g.productionsOf ↔ pr ∈ g.productions := by
  refine ⟨fun h => ?_, fun h => ?_⟩
  · obtain ⟨s, -, h⟩ := mem_flatMap.mp h
    exact hg.numbered.mem_productions h
  · exact mem_flatMap.mpr
      ⟨pr.name, (contains_iff_mem_keys _ _).mp (hg.symbol pr h).1, hg.numbered.mem h⟩

lemma Finding.saturated (h : ∀ pr ∈ g.productions, Grammar.firstAt t pr = t) : g.Saturated (t.getD · []) := by
  have hpass : ∀ pr ∈ g.productions, ∀ x ∈ firstOf (t.getD · []) pr.symbols, x ∈ t.getD pr.name [] := by
    intro pr hpr x hx
    have hmem : x ∈ (Grammar.firstAt t pr).getD pr.name [] := mem_add.mpr (.inr ⟨rfl, hx⟩)
    rwa [h pr hpr] at hmem
  exact ⟨fun pr hpr hv => hpass pr hpr _ (emptyMark_mem_firstOf.mpr hv),
    fun pr hpr x hx => hpass pr hpr x ((mem_firstOf_of_ne hx.ne_emptyMark).mpr hx)⟩

lemma finding_firsts (hg : g.Definite) : g.Finding g.firsts ∧ firstRound g g.nonterminals.keys g.firsts = g.firsts ∧
    g.Saturated (g.firsts.getD · []) := by
  have hround : ∀ t, g.Finding t → g.Finding (firstRound g g.nonterminals.keys t) ∧
      Grows t (firstRound g g.nonterminals.keys t) ∧
      (volume (firstRound g g.nonterminals.keys t) = volume t →
        ∀ pr ∈ g.nonterminals.keys.flatMap g.productionsOf, firstAt t pr = t) :=
    fun t ht => foldl_grows (fun pr hpr _ h => h.firstAt hg ((mem_productions_round hg).mp hpr)) ht
  refine holds_saturate (C := fun t => firstRound g g.nonterminals.keys t = t ∧ g.Saturated (t.getD · []))
    (fun t ht => ⟨(hround t ht).1, (hround t ht).2.1⟩) (fun t ht => ht.tabled.volume_le) (fun t ht hfixed => ⟨hfixed, ?_⟩)
    g.roundLimit (finding_firstStart hg) ?_
  · refine Finding.saturated fun pr hpr => (hround t ht).2.2 (congrArg volume hfixed) pr ?_
    exact (mem_productions_round hg).mpr hpr
  · have hkeys : g.firstStart.keys.length ≤ g.terminals.entries.length + g.nonterminals.entries.length + 2 := by
      have hterminals : g.terminals.keys.length = g.terminals.entries.length := length_map _
      have hnonterminals : g.nonterminals.keys.length = g.nonterminals.entries.length := length_map _
      have hblank : ({} : Registry S (List S)).keys.length = 0 := rfl
      rw [firstStart]
      refine Nat.le_trans (length_foldl_insert _ (fun _ => []) _) ?_
      have hend := length_foldl_insert [endMark] (fun t => [t])
        (g.terminals.keys.foldl (fun r t => r.insert t [t]) ({} : Registry S (List S)))
      have hfirst := length_foldl_insert g.terminals.keys (fun t => [t]) ({} : Registry S (List S))
      simp only [foldl_cons, foldl_nil, length_singleton] at hend
      omega
    have hpool : g.pool.length ≤ g.terminals.entries.length + g.nonterminals.entries.length + 2 := by
      simp [pool, Registry.keys]
    have hle := Nat.mul_le_mul hkeys hpool
    rw [roundLimit]
    omega

end Rounds

omit [Vocabulary S] in
lemma mem_nullable : s ∈ g.nullable ↔ Derives (rulesOf g) [s] [] := by
  constructor
  · refine of_mem_settle (P := fun s => Derives (rulesOf g) [s] []) lists_productions (forall_mem_nil _)
      (fun pr hpr hall => ?_) _ s
    obtain ⟨w, hw, hsymbols⟩ := Derives.exists_of_forall (P := fun _ => False) fun a ha => ⟨[], forall_mem_nil _, hall a ha⟩
    rw [eq_nil_iff_forall_not_mem.mpr hw] at hsymbols
    exact (Derives.of_rule (mem_map.mpr ⟨pr, hpr, rfl⟩)).trans hsymbols
  · intro h
    exact mem_of_derives (closed_settleAll lists_productions _) h (forall_mem_nil _) s (mem_singleton.mpr rfl)

lemma mem_firstOf_singleton : x ∈ firstOf first [s] ↔ x ∈ first s := by
  rw [mem_firstOf]
  constructor
  · rintro (⟨rfl, h⟩ | h)
    · exact h s (mem_singleton.mpr rfl)
    · cases h with
      | here hx _ => exact hx
      | later _ h => cases h
  · intro hx
    by_cases hne : x = emptyMark
    · exact .inl ⟨hne, forall_mem_singleton.mpr (hne ▸ hx)⟩
    · exact .inr (.here hx hne)

lemma firstOf?_firsts (hsymbols : ∀ s ∈ symbols, g.IsSymbol s) :
    firstOf? g.firsts symbols = .ok (firstOf (g.firsts.getD · []) symbols) := by
  have hcontains : ∀ s ∈ symbols, g.firsts.contains s = true := fun s hs =>
    contains_firsts ((hsymbols s hs).imp_right .inl)
  obtain ⟨found, hfound⟩ := firstOf?_ok hcontains
  have hsame := hfound
  rw [firstOf?] at hsame
  split at hsame
  · cases hsame
  · rw [hfound, ← hsame]

structure FirstOf (g : Grammar S) (symbols found : List S) : Prop where
  nodup : found.Nodup
  element : ∀ x ∈ found, x = emptyMark ∨ g.isTerminal x = true
  terminal : ∀ a, g.isTerminal a = true → (a ∈ found ↔ ∃ w, Derives (rulesOf g) symbols (a :: w))
  empty : emptyMark ∈ found ↔ Derives (rulesOf g) symbols []

lemma firstOf_exact (hg : g.Definite) (hsymbols : ∀ s ∈ symbols, g.IsSymbol s) :
    g.FirstOf symbols (firstOf (g.firsts.getD · []) symbols) := by
  obtain ⟨hfinding, -, hsaturated⟩ := finding_firsts hg
  refine ⟨nodup_firstOf _ _, fun x hx => ?_, fun a ha => ?_, ?_⟩
  · exact (mem_firstOf.mp hx).imp And.left fun hx => (hfinding.sound.derives_cons hsymbols hx).1
  · have hne := (hg.unmarked a (.inl ha)).1
    rw [mem_firstOf_of_ne hne]
    refine ⟨fun h => (hfinding.sound.derives_cons hsymbols h).2, fun ⟨w, h⟩ => (hsaturated.of_derives h).2 a ?_⟩
    exact .here (hfinding.terminal a ha) hne
  · rw [emptyMark_mem_firstOf]
    exact ⟨hfinding.sound.derives_nil hsymbols, fun h => (hsaturated.of_derives h).1 (forall_mem_nil _)⟩

lemma firsts_exact (hg : g.Definite) (hs : g.IsSymbol s) : g.FirstOf [s] (g.firsts.getD s []) := by
  have h := firstOf_exact hg (forall_mem_singleton.mpr hs)
  have hmem : ∀ x, x ∈ g.firsts.getD s [] ↔ x ∈ firstOf (g.firsts.getD · []) [s] := by
    intro x
    rw [mem_firstOf_singleton]
  exact ⟨(finding_firsts hg).1.tabled.nodup s, fun x hx => h.element x ((hmem x).mp hx),
    fun a ha => (hmem a).trans (h.terminal a ha), (hmem _).trans h.empty⟩

section Declared

open Declaration

variable {ts : List String} {ds : List Declaration} {start : Option (Option String)} {g : Grammar String}

lemma isNonterminal_setStart {a s : String} (hs : g.isNonterminal s = true) :
    (g.setStart s).isNonterminal a = true ↔ g.isNonterminal a = true := by
  rw [isNonterminal, setStart, contains_update]
  refine ⟨?_, .inl⟩
  rintro (ha | rfl)
  · exact ha
  · exact hs

lemma definite_ofDeclarations (h : ofDeclarations ts ds start = some g)
    (hdefined : ∀ s, g.isNonterminal s = true → g.isDefined s = true)
    (hapart : ∀ s, g.isTerminal s = true → g.isNonterminal s = false)
    (hunmarked : ∀ s, g.IsSymbol s → s ≠ emptyMark ∧ s ≠ endMark) : g.Definite ∧ g.first = {} ∧ g.follow = {} := by
  obtain ⟨g₀, hds, hend⟩ := ofDeclarations_cases h
  obtain ⟨hr, ha⟩ := registered_performAll (Registered.ofTerminals ts) hds
  have hd := declared_performAll (declared_ofTerminals ts) hds
  rcases hend with rfl | ⟨s, hs, rfl⟩
  · refine ⟨⟨hr.toListed.numbered fun {p} hp => hr.augmented p hp, fun pr hpr => ?_, hdefined, hapart, hunmarked⟩,
      hd.first, hd.follow⟩
    exact ⟨(hd.name pr hpr).2, hr.known pr (mem_append_right _ hpr)⟩
  · have hr := hr.setStart ha s
    refine ⟨⟨hr.toListed.numbered fun {p} hp => hr.augmented p hp, fun pr hpr => ?_, hdefined, hapart, hunmarked⟩,
      hd.first, hd.follow⟩
    exact ⟨(isNonterminal_setStart hs).mpr (hd.name pr hpr).2, hr.known pr (mem_append_right _ hpr)⟩

/-- Whatever is declared, if every nonterminal has productions, none is a terminal and no symbol is a mark: the rounds
end, and the first symbols of a nonterminal, and those of a string of symbols found with them, are the first symbols of
the forms it derives, and the mark of nothing where it derives nothing. -/
theorem first_exact (h : ofDeclarations ts ds start = some g)
    (hdefined : ∀ s, g.isNonterminal s = true → g.isDefined s = true)
    (hapart : ∀ s, g.isTerminal s = true → g.isNonterminal s = false)
    (hunmarked : ∀ s, g.IsSymbol s → s ≠ emptyMark ∧ s ≠ endMark) :
    ∃ table, g.computeFirst = (.ok (), { g with first := table }) ∧ firstRound g g.nonterminals.keys table = table ∧
      (∀ s, g.isNonterminal s = true →
        g.FirstOf [s] (table.getD s []) ∧ (s ∈ g.nullable ↔ emptyMark ∈ table.getD s [])) ∧
      ∀ symbols, (∀ s ∈ symbols, g.IsSymbol s) → ∃ found, firstOf? table symbols = .ok found ∧ g.FirstOf symbols found := by
  obtain ⟨hg, hfirst, -⟩ := definite_ofDeclarations h hdefined hapart hunmarked
  have hcompute := computeFirst_ok hfirst fun s hs => hdefined s ((contains_iff_mem_keys _ _).mpr hs)
  refine ⟨g.firsts, hcompute, (finding_firsts hg).2.1, fun s hs => ?_, fun symbols hsymbols => ?_⟩
  · have hexact := firsts_exact hg (.inr hs)
    exact ⟨hexact, mem_nullable.trans hexact.empty.symm⟩
  · exact ⟨_, firstOf?_firsts hsymbols, firstOf_exact hg hsymbols⟩

def items : List Declaration :=
  [.production "list" ["OPEN", "rest"] ⟨"items", 1⟩ "", .production "rest" ["ITEM", "rest"] ⟨"items", 2⟩ "",
    .production "rest" ["end"] ⟨"items", 3⟩ "", .production "end" [] ⟨"items", 4⟩ ""]

def itemList : Grammar String :=
  (ofDeclarations ["OPEN", "ITEM"] items (some none)).get (by decide +kernel)

theorem first_exact_itemList : Derives (rulesOf itemList) ["rest"] [] ∧
    (∃ w, Derives (rulesOf itemList) ["rest"] ("ITEM" :: w)) ∧ ¬ ∃ w, Derives (rulesOf itemList) ["rest"] ("OPEN" :: w) := by
  have hds : ofDeclarations ["OPEN", "ITEM"] items (some none) = some itemList := (Option.some_get _).symm
  have hnon : ∀ s ∈ itemList.nonterminals.keys, itemList.isDefined s = true ∧ s ≠ emptyMark ∧ s ≠ endMark := by
    decide +kernel
  have hterm : ∀ s ∈ itemList.terminals.keys, itemList.isNonterminal s = false ∧ s ≠ emptyMark ∧ s ≠ endMark := by
    decide +kernel
  have hmem (r : Registry String (List Nat)) {s} (h : r.contains s = true) := (contains_iff_mem_keys _ _).mp h
  obtain ⟨table, htable, -, hexact, -⟩ := first_exact hds (fun s hs => (hnon s (hmem _ hs)).1)
    (fun s hs => (hterm s (hmem _ hs)).1) fun s hs => hs.elim (fun hs => (hterm s (hmem _ hs)).2) fun hs => (hnon s (hmem _ hs)).2
  have hrest : itemList.computeFirst.2.first.getD "rest" [] = ["ITEM", emptyMark] := by decide +kernel
  rw [htable] at hrest
  obtain ⟨hexact, -⟩ := hexact "rest" (by decide +kernel)
  rw [show table.getD "rest" [] = ["ITEM", emptyMark] from hrest] at hexact
  exact ⟨hexact.empty.mp (by decide), (hexact.terminal "ITEM" (by decide +kernel)).mp (by decide),
    fun h => absurd ((hexact.terminal "OPEN" (by decide +kernel)).mpr h) (by decide)⟩

end Declared

end LispKit.Grammar
