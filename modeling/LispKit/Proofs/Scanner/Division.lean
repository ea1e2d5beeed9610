import LispKit.Proofs.Scanner.Priority

/-! Division: which rules share a pattern, and when a state gets its patterns at all. -/

namespace LispKit.Scanner

open List Option

variable {V σ : Type} {ds : Declarations (Handler V σ)} {tokenNames : Registry String String}
  {compile : String → Option Pattern.Compiled} {groups : List String}

section Forming

/-- A group of this name is no attribute, or an attribute that makes a token. -/
def Targeted (ds : Declarations (Handler V σ)) (tokenNames : Registry String String) (name : String) : Prop :=
  (Build.targetOf ds tokenNames (name, 0)).isSome = true

lemma targeted_iff (e : String × Nat) : Targeted ds tokenNames e.1 ↔ (Build.targetOf ds tokenNames e).isSome = true := by
  obtain ⟨name, n⟩ := e
  unfold Targeted Build.targetOf
  dsimp only
  split
  · rfl
  · rfl
  · simp only [isSome_map]
  · split
    · rfl
    · simp only [isSome_map]

lemma isSome_mapM {α β : Type} (f : α → Option β) (l : List α) :
    (l.mapM f).isSome = true ↔ ∀ a ∈ l, (f a).isSome = true := by
  induction l with
  | nil => simp
  | cons a l ih =>
    rw [mapM_cons, forall_mem_cons, ← ih]
    cases f a with
    | none => simp
    | some b => cases l.mapM f <;> simp

/-- The rules can share a pattern: what they are together can be read, and its named groups, of which there are some, are
rules or no attributes. -/
def Joinable (ds : Declarations (Handler V σ)) (tokenNames : Registry String String)
    (compile : String → Option Pattern.Compiled) (groups : List String) : Prop :=
  ∃ c, compile ("|".intercalate groups) = some c ∧ c.names ≠ [] ∧ ∀ e ∈ c.names, Targeted ds tokenNames e.1

lemma isSome_master?_iff : (Build.master? ds tokenNames compile groups).isSome = true ↔ Joinable ds tokenNames compile groups := by
  constructor
  · intro h
    obtain ⟨m, hm⟩ := isSome_iff_exists.mp h
    obtain ⟨c, hc, hm⟩ := bind_eq_some_iff.mp hm
    obtain ⟨_, hne, hm⟩ := bind_eq_some_iff.mp hm
    obtain ⟨targets, ht, -⟩ := bind_eq_some_iff.mp hm
    exact ⟨c, hc, (guard_eq_some' _).mp hne, fun e he => (targeted_iff e).mpr ((isSome_mapM _ _).mp (ht ▸ rfl) e he)⟩
  · rintro ⟨c, hc, hne, hall⟩
    obtain ⟨targets, ht⟩ := isSome_iff_exists.mp ((isSome_mapM _ _).mpr fun e he => (targeted_iff e).mp (hall e he))
    rw [Build.master?_of_compile hc hne ht]
    rfl

lemma not_joinable (h : Build.master? ds tokenNames compile groups = none) : ¬ Joinable ds tokenNames compile groups := by
  rw [← isSome_master?_iff, h]
  exact Bool.false_ne_true

end Forming

section Dividing

/-- The rules can share a pattern, or halving them, if they are more than two, leaves halves that get their patterns. -/
inductive Divisible (ds : Declarations (Handler V σ)) (tokenNames : Registry String String)
    (compile : String → Option Pattern.Compiled) : List String → Prop
  | nil : Divisible ds tokenNames compile []
  | whole {groups : List String} : Joinable ds tokenNames compile groups → Divisible ds tokenNames compile groups
  | halves {groups : List String} : 2 < groups.length →
      Divisible ds tokenNames compile (groups.take (groups.length / 2 + 1)) →
      Divisible ds tokenNames compile (groups.drop (groups.length / 2 + 1)) → Divisible ds tokenNames compile groups

lemma divisible_of_not_joinable (hne : groups ≠ []) (hj : ¬ Joinable ds tokenNames compile groups) :
    Divisible ds tokenNames compile groups ↔ 2 < groups.length ∧
      Divisible ds tokenNames compile (groups.take (groups.length / 2 + 1)) ∧
      Divisible ds tokenNames compile (groups.drop (groups.length / 2 + 1)) := by
  refine ⟨fun h => ?_, fun ⟨hlt, hleft, hright⟩ => .halves hlt hleft hright⟩
  cases h with
  | nil => exact (hne rfl).elim
  | whole h => exact (hj h).elim
  | halves hlt hleft hright => exact ⟨hlt, hleft, hright⟩

variable (ds tokenNames compile) in
lemma masters_divided {fuel : Nat} (hfuel : groups.length ≤ fuel) :
    (Divisible ds tokenNames compile groups ∧ ∃ ms, Build.masters ds tokenNames compile fuel groups = .ok ms) ∨
    (¬ Divisible ds tokenNames compile groups ∧ Build.masters ds tokenNames compile fuel groups = .error .tooDeep) := by
  fun_induction Build.masters ds tokenNames compile fuel groups with
  | case1 => exact .inl ⟨.nil, [], rfl⟩
  | case2 _ _ _ m hm => exact .inl ⟨.whole (isSome_master?_iff.mp (hm ▸ rfl)), [m], rfl⟩
  | case3 groups hne => exact (hne (length_eq_zero_iff.mp (Nat.le_zero.mp hfuel))).elim
  | case4 groups hne hm _ hle =>
    refine .inr ⟨?_, rfl⟩
    rw [divisible_of_not_joinable hne (not_joinable hm)]
    exact fun h => by omega
  | case5 groups hne hm n hle =>
    rename_i half ihleft ihright
    rw [divisible_of_not_joinable hne (not_joinable hm)]
    have htake : (groups.take half).length ≤ n := by
      rw [length_take]
      omega
    have hdrop : (groups.drop half).length ≤ n := by
      rw [length_drop]
      omega
    rcases ihleft htake with ⟨hl, left, hleft⟩ | ⟨hl, hleft⟩
    · rcases ihright hdrop with ⟨hr, right, hright⟩ | ⟨hr, hright⟩
      · exact .inl ⟨⟨by omega, hl, hr⟩, left ++ right, by rw [hleft, hright]; rfl⟩
      · exact .inr ⟨fun h => hr h.2.2, by rw [hleft, hright]; rfl⟩
    · exact .inr ⟨fun h => hl h.2.1, by rw [hleft]; rfl⟩

/-- It is enough that rules which follow one another can share a pattern two by two. -/
lemma divisible_of_pairs (h : ∀ p, p <:+: groups → p ≠ [] → p.length ≤ 2 → Joinable ds tokenNames compile p) :
    Divisible ds tokenNames compile groups := by
  induction hn : groups.length using Nat.strong_induction_on generalizing groups with
  | h n ih =>
    by_cases hne : groups = []
    · exact hne ▸ .nil
    by_cases hle : groups.length ≤ 2
    · exact .whole (h groups infix_rfl hne hle)
    · refine .halves (by omega) (ih _ ?_ (fun p hp => h p (hp.trans (List.take_prefix _ _).isInfix)) rfl)
        (ih _ ?_ (fun p hp => h p (hp.trans (drop_suffix _ _).isInfix)) rfl)
      · rw [length_take]
        omega
      · rw [length_drop]
        omega

lemma Divided.texts {ms : List (Master V σ)} (h : Divided ds tokenNames compile groups ms) :
    ∃ parts : List (List String), parts.flatten = groups ∧ (∀ p ∈ parts, p ≠ []) ∧
      ms.map Master.text = parts.map "|".intercalate := by
  induction h with
  | nil => exact ⟨[], rfl, forall_mem_nil _, rfl⟩
  | @whole groups m hne hm => exact ⟨[groups], flatten_singleton, by simpa using hne, by simp [(of_master? hm).1]⟩
  | halves _ _ hleft hright =>
    obtain ⟨parts, rfl, hparts, htexts⟩ := hleft
    obtain ⟨parts', rfl, hparts', htexts'⟩ := hright
    refine ⟨parts ++ parts', flatten_append, forall_mem_append.mpr ⟨hparts, hparts'⟩, ?_⟩
    rw [map_append, map_append, htexts, htexts']

end Dividing

/-- A state gets its patterns exactly if halving its rules leaves parts that can share one, and there is no other failure
than dividing without an end. The patterns hold all rules in their order. It is not enough that each rule can be read for
itself, but it is enough that any two neighbours can be read together. -/
theorem masters_keep_rules (ds : Declarations (Handler V σ)) (tokenNames : Registry String String)
    (compile : String → Option Pattern.Compiled) (groups : List String) :
    ((∃ ms, Build.masters ds tokenNames compile groups.length groups = .ok ms) ↔ Divisible ds tokenNames compile groups) ∧
    (∀ f, Build.masters ds tokenNames compile groups.length groups = .error f → f = .tooDeep) ∧
    ((∀ p, p <:+: groups → p ≠ [] → p.length ≤ 2 → Joinable ds tokenNames compile p) →
      ∃ ms, Build.masters ds tokenNames compile groups.length groups = .ok ms) ∧
    ∀ ms, Build.masters ds tokenNames compile groups.length groups = .ok ms →
      ∃ parts : List (List String), parts.flatten = groups ∧ (∀ p ∈ parts, p ≠ []) ∧
        ms.map Master.text = parts.map "|".intercalate := by
  have hiff : (∃ ms, Build.masters ds tokenNames compile groups.length groups = .ok ms) ↔
      Divisible ds tokenNames compile groups := by
    rcases masters_divided ds tokenNames compile (Nat.le_refl _) with ⟨hd, hms⟩ | ⟨hd, hdeep⟩
    · exact iff_of_true hms hd
    · refine iff_of_false ?_ hd
      rintro ⟨ms, hms⟩
      cases hdeep.symm.trans hms
  refine ⟨hiff, fun f hf => ?_, fun h => hiff.mpr (divisible_of_pairs h), fun ms h => (divided_of_masters h).texts⟩
  rcases masters_divided ds tokenNames compile (Nat.le_refl _) with ⟨-, ms, hms⟩ | ⟨-, hdeep⟩
  · cases hf.symm.trans hms
  · exact Except.error.inj (hf.symm.trans hdeep)

section Clashing

instance {flags : Pattern.Flags} (r : Rule V σ) : Decidable (r.Alone flags) :=
  decidable_of_iff ('>' ∉ r.name.toList ∧ (Pattern.compile r.pattern flags).isOk = true ∧
    (Pattern.compile r.text flags).isOk = true) <| by
      have hok : ∀ x : Except Pattern.ReadError Pattern.Compiled, x.isOk = true ↔ ∃ c, x = .ok c := by
        rintro (_ | _) <;> simp [Except.isOk, Except.toBool]
      rw [hok, hok]
      exact ⟨fun h => ⟨h.1, h.2.1, h.2.2⟩, fun h => ⟨h.name, h.own, h.group⟩⟩

def typed (rules : List (Rule V σ)) : Registry String String :=
  ⟨rules.map fun r => (r.name, r.type)⟩

def paired : Declarations (Handler String String) where
  file := "paired"
  attributes :=
    [("t_A", .value (.text "(?P<x>a)")), ("t_B", .value (.text "(?P<x>b)")),
      ("t_error", .routine (silently "t_error" 1 [.skip 1])), ("tokens", .value (.list [.text "A", .text "B"]))]
  source := none

/-- Two rules that can be read each for itself are not divided, as they have a group of one name. -/
theorem clashing_pair_undivided : (∀ r ∈ ownRules paired "INITIAL", r.Alone { verbose := true }) ∧
    ((ownRules paired "INITIAL").map Rule.name).Nodup ∧
    Build.masters paired (typed (ownRules paired "INITIAL")) (Pattern.compile? { verbose := true }) 2
      ((ownRules paired "INITIAL").map Rule.text) = .error .tooDeep ∧ (build paired {}).1 = .error (.fault .tooDeep) :=
  ⟨by decide +kernel, by decide, rfl, rfl⟩

end Clashing

end LispKit.Scanner
