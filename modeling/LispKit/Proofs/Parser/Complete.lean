import LispKit.Proofs.Parser.Finish

/-! A parser whose tables decide every reduction finds the tree of each word that has one. -/

namespace LispKit.Parser

open Vocabulary Collection Lookahead ParseTree List

variable {S V σ E : Type} [DecidableEq S] [Vocabulary S] {h : Host S V σ E} {α : Type} {Q : Quiet h α}
variable {t : Tables S} {g : Grammar S} {p : Production S} {A : Collection S} {start : S}
variable {c : Config S V σ} {ss : List (StackSymbol S V)} {w : List α} {tree : ParseTree S α}

def Steps (h : Host S V σ E) (t : Tables S) : Config S V σ → Config S V σ → Prop :=
  Relation.ReflTransGen fun c c' => step h t {} c = .running c'

def Wanted (p : Production S) (A : Collection S) (allowed : List (S × List S)) (q : Nat) (s : S) : Prop :=
  ∃ (pr : Production S) (d : Nat), pr.dotted d ∈ A.itemsOf q ∧ pr.symbols[d]? = some s ∧
    ((pr.name, pr.symbols) ∈ allowed ∨ pr = p)

structure Decided (t : Tables S) (g : Grammar S) (p : Production S) (A : Collection S) (start : S)
    (allowed : List (S × List S)) : Prop where
  rule : ∀ {r}, r ∈ allowed → r ∈ rulesOf g
  reduce : ∀ {pr : Production S} {q q' s}, pr ∈ g.productions → (pr.name, pr.symbols) ∈ allowed →
    Wanted p A allowed q pr.name → pr.dotted 0 ∈ A.itemsOf q → A.reach? q pr.symbols = some q' →
    Follows g A start q pr.name s → t.action? q' s = some (.reduce pr.number)

omit [DecidableEq S] [Vocabulary S] in
lemma Fits.mono {rules more : List (S × List S)} {terminal : S → Prop} {type : α → S} (hsub : ∀ r ∈ rules, r ∈ more)
    (ht : tree.Fits rules terminal type) : tree.Fits more terminal type := by
  induction ht with
  | leaf a ha => exact .leaf a ha
  | node name children hrule _ ih => exact .node name children (hsub _ hrule) ih

def Parses (Q : Quiet h α) (t : Tables S) (g : Grammar S) (p : Production S) (A : Collection S) (start : S)
    (allowed : List (S × List S)) (tree : ParseTree S α) : Prop :=
  ∀ {c : Config S V σ} {ss : List (StackSymbol S V)} {w : List α} {r : Nat}, Normal Q A c ss (tree.word ++ w) →
    Wanted p A allowed c.state (tree.root Q.type) → A.goto? c.state (tree.root Q.type) = some r →
    (g.isNonterminal (tree.root Q.type) = true → Follows g A start c.state (tree.root Q.type) (Q.ahead w)) →
    ∃ (c' : Config S V σ) (s : StackSymbol S V) (v : V), Steps h t c c' ∧ Normal Q A c' (s :: ss) w ∧
      c'.states = r :: c.states ∧ s.type = tree.root Q.type ∧ s.value = some v ∧ Denotes Q.Reads Q.Acts tree v ∧
      Q.clean c'.host = Q.clean c.host

variable {allowed : List (S × List S)} {ts : List (ParseTree S α)} {pr : Production S}

lemma parses_leaf (ht : Steady t g p A start) {a : α} (hterm : g.isTerminal (Q.type a) = true) :
    Parses Q t g p A start allowed (.leaf a) := by
  intro c ss w r hn hwanted hr _
  obtain ⟨pr, d, hi, hs, -⟩ := hwanted
  have hr : A.goto? c.state (Q.type a) = some r := hr
  have hact : t.action? c.state (Q.type a) = some (.shift r) := by
    obtain ⟨r', hact⟩ := ht.serves.shift hi hs hterm
    have hgoto := (ht.serves.of_shift hact).1
    rw [show (ParseTree.leaf a : ParseTree S α).root Q.type = Q.type a from rfl] at hact hgoto
    rw [hr] at hgoto
    rwa [Option.some.inj hgoto]
  rcases hn.step_cases t with ⟨n, hd, -⟩ | ⟨-, token, c₁, heq, htype, hn₁, hl, hstates, hstate, hclean⟩
  · rw [ht.default?_of_shift hact] at hd
    cases hd
  · rw [← hstate] at hr hact
    obtain ⟨c', v, hshift, htype', hvalue, hreads, hn', hstates', hclean'⟩ := hn₁.shift hl hr
    refine ⟨c', token, v, .single ?_, hn', by rw [hstates', hstates], htype', hvalue, .leaf hreads,
      hclean'.trans hclean⟩
    rw [← htype'] at hact
    rw [heq, act, hact]
    exact hshift

lemma Normal.step_reduce (ht : Steady t g p A start) (hn : Normal Q A c ss w)
    (hact : t.action? c.state (Q.ahead w) = some (.reduce pr.number)) :
    ∃ c₁, step h t {} c = reduceBy h t {} pr.number c₁ ∧ Normal Q A c₁ ss w ∧ c₁.states = c.states ∧ c₁.state = c.state ∧
      Q.clean c₁.host = Q.clean c.host := by
  rcases hn.step_cases t with ⟨n, hd, heq⟩ | ⟨-, token, c₁, heq, htype, hn₁, -, hstates, hstate, hclean⟩
  · obtain rfl := Action.reduce.inj ((ht.serves.of_default hd).2 hact)
    exact ⟨c, heq, hn, rfl, rfl, rfl⟩
  · refine ⟨c₁, ?_, hn₁, hstates, hstate, hclean⟩
    rw [heq, act, htype, hstate, hact]

omit [DecidableEq S] in
lemma ahead_eq (Q : Quiet h α) (w : List α) : Q.ahead w = firstType Q.type w := by
  cases w <;> rfl

lemma parses_forest (ht : Steady t g p A start) {q₀ : Nat} (h0 : pr.dotted 0 ∈ A.itemsOf q₀)
    (hallowed : (pr.name, pr.symbols) ∈ allowed) (htrans : (q₀, pr.name) ∈ transitions g A)
    (hfollow : Follows g A start q₀ pr.name (Q.ahead w))
    (hfits : ∀ u ∈ ts, u.Fits (rulesOf g) (g.isTerminal · = true) Q.type)
    (hparses : ∀ u ∈ ts, Parses Q t g p A start allowed u) {c : Config S V σ} {ss : List (StackSymbol S V)} {d : Nat}
    (hn : Normal Q A c ss (words ts ++ w)) (hreach : A.reach? q₀ (pr.symbols.take d) = some c.state)
    (hi : pr.dotted d ∈ A.itemsOf c.state) (hsym : pr.symbols.drop d = ts.map (root Q.type)) :
    ∃ (c' : Config S V σ) (new : List (StackSymbol S V)), Steps h t c c' ∧ Normal Q A c' (new ++ ss) w ∧
      A.reach? q₀ pr.symbols = some c'.state ∧ c'.states.drop new.length = c.states ∧ new.length = ts.length ∧
      List.Forall₂ (fun u s => ∃ v, s.value = some v ∧ Denotes Q.Reads Q.Acts u v) ts new.reverse ∧
      Q.clean c'.host = Q.clean c.host := by
  induction ts generalizing c ss d with
  | nil =>
    refine ⟨c, [], .refl, hn, ?_, rfl, rfl, .nil, rfl⟩
    have hd : pr.symbols.length ≤ d := drop_eq_nil_iff.mp hsym
    rwa [take_of_length_le hd] at hreach
  | cons u ts ih =>
    obtain ⟨hnext, hdrop⟩ := next_of_drop hsym
    obtain ⟨r, hr⟩ := ht.plain.explored.exists_goto? hi hnext
    have hfits' : ∀ x ∈ ts, x.Fits (rulesOf g) (g.isTerminal · = true) Q.type :=
      fun x hx => hfits x (mem_cons_of_mem _ hx)
    rw [words, append_assoc] at hn
    have hchild : Follows g A start c.state (u.root Q.type) (Q.ahead (words ts ++ w)) := by
      rw [ahead_eq] at hfollow ⊢
      exact follows_child ht.plain.sorted ht.plain.explored h0 htrans hfollow hfits' hreach hi hsym hr
    obtain ⟨c₁, s, v, hsteps, hn₁, hstates, -, hvalue, hden, hclean⟩ := hparses u mem_cons_self hn
      ⟨pr, d, hi, hnext, .inl hallowed⟩ hr fun _ => hchild
    have hstate := hn₁.state_eq hstates
    have hreach₁ : A.reach? q₀ (pr.symbols.take (d + 1)) = some c₁.state := by
      rw [take_add_one, hnext, Option.toList_some, reach?_append, hreach, Option.bind_some, reach?_cons, hr,
        hstate]
      rfl
    obtain ⟨c', new, hsteps', hn', hreach', hdrop', hlen, hall, hclean'⟩ := ih hfits'
      (fun x hx => hparses x (mem_cons_of_mem _ hx)) hn₁ hreach₁
      (hstate ▸ ht.plain.explored.dotted_succ_mem hi hnext hr) hdrop
    refine ⟨c', new ++ [s], hsteps.trans hsteps', ?_, hreach', ?_, ?_, ?_, hclean'.trans hclean⟩
    · rwa [append_assoc, singleton_append]
    · rw [length_append, ← drop_drop, hdrop', hstates]
      rfl
    · rw [length_append, hlen]
      rfl
    · rw [reverse_append]
      exact .cons ⟨v, hvalue, hden⟩ hall

omit [DecidableEq S] in
lemma denotes_values {syms : List (StackSymbol S V)}
    (hall : List.Forall₂ (fun u s => ∃ v, s.value = some v ∧ Denotes Q.Reads Q.Acts u v) ts syms) :
    List.Forall₂ (Denotes Q.Reads Q.Acts) ts (syms.map fun s => s.value.getD h.nothing) := by
  induction hall with
  | nil => exact .nil
  | cons hs _ ih =>
    obtain ⟨v, hv, hden⟩ := hs
    refine .cons ?_ ih
    beta_reduce
    rwa [hv, Option.getD_some]

theorem parses_tree (ht : Steady t g p A start) (hdec : Decided t g p A start allowed)
    (hfits : tree.Fits allowed (g.isTerminal · = true) Q.type) : Parses Q t g p A start allowed tree := by
  induction hfits with
  | leaf a hterm => exact parses_leaf ht hterm
  | node name children hrule hfits ih =>
    intro c ss w r hn hwanted hr hfollow
    obtain ⟨pr, hpr, rfl, hsym⟩ := exists_production ht.plain.explored.numbered (hdec.rule hrule)
    have hmem := ht.plain.explored.numbered.mem_productions hpr
    obtain ⟨outer, e, hi, hnext, hout⟩ := hwanted
    have h0 : pr.dotted 0 ∈ A.itemsOf c.state := ht.plain.explored.dotted_zero_mem hi hnext hpr
    have hallowed : (pr.name, pr.symbols) ∈ allowed := by rwa [hsym]
    have hfollow := hfollow (ht.plain.sorted.name hmem)
    have hmore : ∀ u ∈ children, u.Fits (rulesOf g) (g.isTerminal · = true) Q.type :=
      fun u hu => Fits.mono (fun _ hr => hdec.rule hr) (hfits u hu)
    obtain ⟨c₁, new, hsteps, hn₁, hreach, hdrop, hlen, hall, hclean⟩ := parses_forest ht h0 hallowed
      (ht.plain.mem_transitions ht.plain.explored hmem h0) hfollow hmore ih hn rfl h0 (by rw [drop_zero, hsym])
    have hact := hdec.reduce hmem hallowed ⟨outer, e, hi, hnext, hout⟩ h0 hreach hfollow
    obtain ⟨c₂, hstep, hn₂, hstates₂, hstate₂, hclean₂⟩ := hn₁.step_reduce ht hact
    have hend : pr.dotted pr.symbols.length ∈ A.itemsOf c₂.state :=
      hstate₂ ▸ ht.plain.explored.dotted_length_mem h0 hreach
    obtain ⟨c', v, q, qs, r', hred, hdrop', -, hr', -, hacts, hn', hstates', hclean'⟩ := hn₂.reduce ht hmem hend
    have hcount : pr.symbols.length = new.length := by rw [hlen, hsym, length_map]
    rw [hcount, hstates₂, hdrop] at hdrop'
    rw [hcount, take_left] at hacts
    rw [hcount, drop_left] at hn'
    obtain rfl : r' = r := by
      rw [← hn.state_eq hdrop', show A.goto? c.state pr.name = some r from hr] at hr'
      exact (Option.some.inj hr').symm
    refine ⟨c', _, v, hsteps.tail ?_, hn', ?_, rfl, rfl, .node (denotes_values hall) hacts, ?_⟩
    · rw [hstep, hred]
    · rw [hstates', hdrop']
    · rw [hclean', hclean₂, hclean]

section Parse

variable {host : σ} {input : List α} {settled : Bool} {n : Nat}

lemma normal_start (hf : Q.Feed host (some input)) : Normal Q A (.start host settled) [] input :=
  ⟨.start, rfl, rfl, .unread rfl rfl hf, fun _ => rfl⟩

lemma Steps.run {c c' : Config S V σ} (hs : Steps h t c c') {v : Option V} {e : Config S V σ} {n : Nat}
    (hrun : run h t {} n c = .finished v e) : ∃ m, Parser.run h t {} m c' = .finished v e := by
  induction hs using Relation.ReflTransGen.head_induction_on generalizing n with
  | refl => exact ⟨n, hrun⟩
  | head hstep _ ih =>
    cases n with
    | zero => cases hrun
    | succ n =>
      rw [Parser.run, hstep] at hrun
      exact ih hrun

theorem parse_finishes (ht : Steady t g p A start) (W : Weights g A) (hf : Q.Feed host (some input))
    (hn : W.cost * input.length + W.lift + 1 ≤ n) :
    ∃ v c', parse h t {} n settled host = .finished v c' ∧ Q.Feed c'.host none ∧
      (Q.clean c'.host = true → Derives (rulesOf g) [start] (input.map Q.type)) := by
  have hb : W.bonus 0 ≤ W.lift := W.bonus_le 0
  refine run_finishes ht W input n (.inl ⟨normal_start hf, ?_, ?_⟩)
  · intro _
    exact ⟨[], rfl, .refl⟩
  · change W.cost * input.length + 0 + W.bonus 0 + 1 ≤ n
    omega

/-- Parsing finds the tree of allowed rules over the input. -/
theorem parse_tree (ht : Steady t g p A start) (hdec : Decided t g p A start allowed) (W : Weights g A)
    (hf : Q.Feed host (some input)) (hn : W.cost * input.length + W.lift + 1 ≤ n) {tree : ParseTree S α}
    (hfits : tree.Fits allowed (g.isTerminal · = true) Q.type) (hroot : tree.root Q.type = start)
    (hword : tree.word = input) :
    ∃ v c', parse h t {} n settled host = .finished (some v) c' ∧ Denotes Q.Reads Q.Acts tree v ∧
      Q.clean c'.host = Q.clean host := by
  have hsym : p.symbols[0]? = some start := by
    rw [ht.plain.first.2]
    rfl
  have h0 := ht.plain.explored.start_mem
  obtain ⟨r, hr⟩ := ht.plain.explored.exists_goto? h0 hsym
  have hnormal : Normal Q A (.start host settled) [] (tree.word ++ []) := by
    rw [append_nil, hword]
    exact normal_start hf
  obtain ⟨c₁, s, v, hsteps, hn₁, hstates, -, hvalue, hden, hclean⟩ := parses_tree ht hdec hfits hnormal
    ⟨p, 0, h0, hroot ▸ hsym, .inr rfl⟩ (hroot ▸ hr) fun _ => hroot ▸ .last
  -- in the state after the whole program the end is accepted
  have hfinal : p.dotted 1 ∈ A.itemsOf c₁.state := by
    rw [hn₁.state_eq hstates]
    exact ht.plain.explored.dotted_succ_mem h0 hsym hr
  have hact := ht.serves.accept hfinal
  obtain ⟨c₂, hstep, hclean₂⟩ : ∃ c₂, step h t {} c₁ = .finished s.value c₂ ∧ Q.clean c₂.host = Q.clean c₁.host := by
    rcases hn₁.step_cases t with ⟨m, hd, -⟩ | ⟨-, token, c₂, heq, htype, hn₂, hl, -, hstate, hcl⟩
    · cases (ht.serves.of_default hd).2 hact
    · have hact₂ : t.action? c₂.state token.type = some .accept := by
        rw [hstate, htype]
        exact hact
      obtain ⟨-, -, top, htop, -, haccept⟩ := hn₂.accept ht hl hact₂
      obtain ⟨rfl, -⟩ := List.cons.inj htop
      refine ⟨c₂, ?_, hcl⟩
      rw [heq, act, hact₂]
      exact haccept
  obtain ⟨v', c', hparse, -⟩ := parse_finishes ht W hf hn
  obtain ⟨m, hm⟩ := hsteps.run hparse
  cases m with
  | zero => cases hm
  | succ m =>
    rw [run, hstep, hvalue] at hm
    injection hm with hv hc
    subst hv hc
    exact ⟨v, c₂, hparse, hden, hclean₂.trans hclean⟩

end Parse

end LispKit.Parser
