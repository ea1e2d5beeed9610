import LispKit.Proofs.Automaton.Bound
import LispKit.Proofs.Grammar.Consistent

/-! States told apart: no two states have one kernel, but two states whose kernels list the same items in different
orders hold the same items. -/

namespace LispKit

open List

namespace Collection

variable {S : Type} [DecidableEq S] {g : Grammar S} {p : Production S} {kernel kernel' : List (Item S)} {i : Item S}

inductive Opened (g : Grammar S) (kernel : List (Item S)) : Item S → Prop
  | kernel {i : Item S} : i ∈ kernel → Opened g kernel i
  | begun {i : Item S} {pr : Production S} : Opened g kernel i → pr ∈ g.productions → i.next? = some pr.name →
      Opened g kernel (Item.start pr)

omit [DecidableEq S] in
lemma Opened.mono (hsub : ∀ i ∈ kernel, i ∈ kernel') (h : Opened g kernel i) : Opened g kernel' i := by
  induction h with
  | kernel h => exact .kernel (hsub _ h)
  | begun _ hpr hnext ih => exact .begun ih hpr hnext

lemma mem_closure_iff (hg : g.Numbered) : i ∈ closure g kernel ↔ Opened g kernel i := by
  constructor
  · refine of_mem_closureFrom (fun {i s pr} hi hs hpr => ?_) fun i => .kernel
    exact .begun hi (hg.mem_productions hpr) (hg.name hpr ▸ hs)
  · intro h
    induction h with
    | kernel h => exact mem_closure_of_mem h
    | begun _ hpr hnext ih => exact start_mem_closure hg ih hnext (hg.mem hpr)

/-- A state keeps its kernel among its items: they have a dot after a symbol or belong to the added production. -/
lemma IsKernel.mem_iff (hg : g.Numbered) (hp : p.number = 0) (h : IsKernel p kernel) :
    i ∈ kernel ↔ i ∈ closure g kernel ∧ (0 < i.dot ∨ i.number = 0) := by
  constructor
  · intro hi
    refine ⟨mem_closure_of_mem hi, ?_⟩
    rcases h.2 with rfl | hdot
    · rw [mem_singleton.mp hi]
      exact .inr hp
    · exact .inl (hdot i hi)
  · rintro ⟨hi, hkept⟩
    rcases origin_closure hi with hi | ⟨_, -, _, -, pr, hpr, rfl⟩
    · exact hi
    · rcases hkept with hdot | hzero
      · exact absurd hdot (Nat.lt_irrefl 0)
      · exact absurd hzero (number_ne_zero hg hpr)

lemma IsKernel.perm_iff (hg : g.Numbered) (hp : p.number = 0) (h : IsKernel p kernel) (h' : IsKernel p kernel') :
    kernel.Perm kernel' ↔ ∀ i, i ∈ closure g kernel ↔ i ∈ closure g kernel' := by
  constructor
  · intro hperm i
    rw [mem_closure_iff hg, mem_closure_iff hg]
    exact ⟨.mono fun _ => hperm.mem_iff.mp, .mono fun _ => hperm.mem_iff.mpr⟩
  · intro hsame
    refine (perm_ext_iff_of_nodup h.1 h'.1).mpr fun i => ?_
    rw [h.mem_iff hg hp, h'.mem_iff hg hp, hsame]

/-- States with one kernel are one state, and they hold the same items exactly if their kernels have the same items in
some order. Every state is closed, and a step leads to what the items moved over its symbol open. -/
structure ToldApart (g : Grammar S) (c : Collection S) : Prop where
  kernel : ∀ {q q' : Nat} {st st' : ItemSet S}, c.states[q]? = some st → c.states[q']? = some st' → st.kernel = st'.kernel → q = q'
  items : ∀ {q q' : Nat} {st st' : ItemSet S}, c.states[q]? = some st → c.states[q']? = some st' →
    ((∀ i, i ∈ c.itemsOf q ↔ i ∈ c.itemsOf q') ↔ st.kernel.Perm st'.kernel)
  closed : ∀ q i, Opened g (c.itemsOf q) i → i ∈ c.itemsOf q
  leads : ∀ {q s r}, c.goto? q s = some r → ∀ i, i ∈ c.itemsOf r ↔ Opened g (moved (c.itemsOf q) s) i
  moves : ∀ q s, (∃ r, c.goto? q s = some r) ↔ ∃ i ∈ c.itemsOf q, i.next? = some s

lemma toldApart_build (hg : g.Numbered) (hp : g.augmented = some p) : ToldApart g (build g p) := by
  have hc := explored_build hg hp
  obtain ⟨hwithin, -⟩ := (family_kernelsIn hg hp).within (length_kernelsIn_le g p)
  have hkernel : ∀ {q : Nat} {st : ItemSet S}, (build g p).states[q]? = some st → IsKernel p st.kernel := fun hst =>
    of_decide_eq_true (mem_filter.mp (hwithin.mem _ (mem_of_getElem? hst))).2
  have hitems : ∀ {q : Nat} {st : ItemSet S}, (build g p).states[q]? = some st → (build g p).itemsOf q = closure g st.kernel := by
    intro q st hst
    rw [itemsOf_eq hst, hwithin.items st (mem_of_getElem? hst)]
  refine ⟨fun {q q' st st'} hst hst' heq => ?_, fun {q q' st st'} hst hst' => ?_, fun q i h => ?_,
    fun {q s r} hr i => ?_, fun q s => ⟨?_, ?_⟩⟩
  · have hq : ((build g p).states.map ItemSet.kernel)[q]? = some st.kernel := by rw [getElem?_map, hst]; rfl
    have hq' : ((build g p).states.map ItemSet.kernel)[q']? = some st.kernel := by
      rw [getElem?_map, hst', heq]
      rfl
    exact (getElem?_inj (List.getElem?_eq_some_iff.mp hq).1 hwithin.nodup).mp (hq.trans hq'.symm)
  · rw [hitems hst, hitems hst', (hkernel hst).perm_iff hg (hg.number (n := 0) hp) (hkernel hst')]
  · induction h with
    | kernel h => exact h
    | begun _ hpr hnext ih =>
      obtain ⟨st, hst, -, -⟩ := hc.state_of_mem ih
      rw [hitems hst] at ih ⊢
      exact start_mem_closure hg ih hnext (hg.mem hpr)
  · obtain ⟨st, hst, hmoved, -⟩ := hc.leads hr
    rw [hitems hst, hmoved, mem_closure_iff hg]
  · rintro ⟨r, hr⟩
    exact hc.exists_expected hr
  · rintro ⟨i, hi, hs⟩
    obtain ⟨st, hst, -, -⟩ := hc.state_of_mem hi
    exact hc.moves (hc.all ▸ (List.getElem?_eq_some_iff.mp hst).1) hi hs

end Collection

namespace Grammar

open Declaration Collection Vocabulary

variable {ts : List String} {ds : List Declaration} {g₀ g : Grammar String} {start : Option String}

/-- Whatever is declared and whichever start symbol is chosen, the states are told apart by their kernels. -/
theorem states_told_apart (hds : performAll (ofTerminals ts) ds = some g₀) (hstart : declareStart g₀ start = .ok g) :
    ∃ p, g.augmented = some p ∧ ToldApart g (build g p) := by
  obtain ⟨hr, ha⟩ := registered_performAll (Registered.ofTerminals ts) hds
  simp only [declareStart] at hstart
  split at hstart
  · cases hstart
  · rename_i first _
    split at hstart
    · obtain rfl := Except.ok.inj hstart
      have hr := hr.setStart ha first
      exact ⟨_, rfl, toldApart_build (hr.toListed.numbered fun {p} hp => hr.augmented p hp) rfl⟩
    · cases hstart

def crossed : List Declaration :=
  [.production "s" ["A", "u"] ⟨"crossed", 1⟩ "", .production "s" ["A", "v"] ⟨"crossed", 2⟩ "",
    .production "s" ["B", "v"] ⟨"crossed", 3⟩ "", .production "s" ["B", "u"] ⟨"crossed", 4⟩ "",
    .production "u" ["Z", "M"] ⟨"crossed", 5⟩ "", .production "v" ["Z", "N"] ⟨"crossed", 6⟩ ""]

def crossing : Grammar String :=
  (performAll (ofTerminals ["A", "B", "Z", "M", "N"]) crossed).get (by decide +kernel)

def crossingStates : Collection String :=
  build (crossing.setStart "s") ⟨0, startMark, ["s"], .default, "", 0, ""⟩

theorem states_told_apart_crossing : ToldApart (crossing.setStart "s") crossingStates := by
  have hds : performAll (ofTerminals ["A", "B", "Z", "M", "N"]) crossed = some crossing := (Option.some_get _).symm
  have hnon : crossing.isNonterminal "s" = true := by decide +kernel
  have hstart : declareStart crossing (some "s") = .ok (crossing.setStart "s") := by simp [declareStart, hnon]
  obtain ⟨p, hp, h⟩ := states_told_apart hds hstart
  obtain rfl := Option.some.inj hp
  exact h

/-- After either terminal, what both symbols begin with leads to the same items, but not to the same state. -/
theorem crossing_states_alike : 6 < crossingStates.states.length ∧ 9 < crossingStates.states.length ∧
    ∀ i, i ∈ crossingStates.itemsOf 6 ↔ i ∈ crossingStates.itemsOf 9 := by
  have hsub : crossingStates.itemsOf 6 ⊆ crossingStates.itemsOf 9 ∧ crossingStates.itemsOf 9 ⊆ crossingStates.itemsOf 6 := by
    decide +kernel
  exact ⟨by decide +kernel, by decide +kernel, fun i => ⟨@hsub.1 i, @hsub.2 i⟩⟩

end Grammar

end LispKit
