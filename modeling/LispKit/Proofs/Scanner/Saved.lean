import LispKit.Proofs.Scanner.Fresh
import LispKit.Proofs.Scanner.Read

/-! Saved states: what calls that change the state of a scanner do to its state and to the states it has saved. -/

namespace LispKit.Scanner

open List

variable {V σ : Type}

inductive StateCall where
  | begin (state : String)
  | push (state : String)
  | pop

namespace StateCall

def perform (sc : Scanner V σ) : StateCall → Except ScanError Unit × Scanner V σ
  | begin state =>
    match sc.begin state with
    | .ok sc => (.ok (), sc)
    | .error e => (.error e, sc)
  | push state => sc.push state
  | pop => sc.pop

/-- The scanner after some calls, those that were refused included. -/
def performAll (sc : Scanner V σ) (calls : List StateCall) : Scanner V σ :=
  calls.foldl (fun sc call => (call.perform sc).2) sc

def Refused (states saved : List String) : StateCall → Prop
  | begin state | push state => state ∉ states
  | pop => saved = []

/-- What a refused call leaves behind: the state is saved before it is known that there is no other to enter. -/
def remnant (sc : Scanner V σ) : StateCall → Scanner V σ
  | push _ => { sc with stack := sc.state :: sc.stack }
  | _ => sc

/-- The state that a call enters, and the states that are then saved. -/
inductive Enters (states : List String) (sc : Scanner V σ) : StateCall → String → List String → Prop
  | begin {s : String} : s ∈ states → Enters states sc (.begin s) s sc.stack
  | push {s : String} : s ∈ states → Enters states sc (.push s) s (sc.state :: sc.stack)
  | pop {s : String} {rest : List String} : sc.stack = s :: rest → Enters states sc .pop s rest

def run (sc : Scanner V σ) (calls : List StateCall) : Option (Scanner V σ) :=
  calls.foldlM (fun sc call => (call.perform sc).1.toOption.map fun _ => (call.perform sc).2) sc

/-- The calls restore as many states as they save and those that were saved before, and never more. -/
def balances : Nat → List StateCall → Bool
  | n, [] => n == 0
  | n, begin _ :: calls => balances n calls
  | n, push _ :: calls => balances (n + 1) calls
  | 0, pop :: _ => false
  | n + 1, pop :: calls => balances n calls

end StateCall

open StateCall

def moved (sc : Scanner V σ) (state : String) (stack : List String) : Scanner V σ :=
  refreshed { sc with state := state, stack := stack }

/-- A scanner that consults what its state has, and whose states are all known. -/
structure Sound (states : List String) (sc : Scanner V σ) : Prop where
  settled : sc.Settled
  known : ∀ {s}, sc.rules.masters.contains s = true ↔ s ∈ states
  state : sc.state ∈ states
  saved : ∀ s ∈ sc.stack, s ∈ states

namespace Sound

variable {states below : List String} {sc sc' : Scanner V σ} (h : Sound states sc) {s : String} {stack : List String}
  {call : StateCall} {calls : List StateCall}

include h

lemma begin_of_mem (hs : s ∈ states) (stack : List String) : { sc with stack := stack }.begin s = .ok (sc.moved s stack) := by
  rw [begin_eq, if_pos (h.known.mpr hs)]
  rfl

lemma begin_of_not_mem (hs : s ∉ states) (stack : List String) :
    { sc with stack := stack }.begin s = .error (.undefinedState s) := by
  rw [begin_eq, if_neg (h.known.not.mpr hs)]

lemma enters (he : Enters states sc call s stack) :
    call.perform sc = (.ok (), sc.moved s stack) ∧ Sound states (sc.moved s stack) := by
  cases he with
  | begin hs => exact ⟨by rw [perform, h.begin_of_mem hs sc.stack], rfl, h.known, hs, h.saved⟩
  | push hs => exact ⟨by rw [perform, push, h.begin_of_mem hs], rfl, h.known, hs, forall_mem_cons.mpr ⟨h.state, h.saved⟩⟩
  | pop hstack =>
    obtain ⟨hs, hrest⟩ := forall_mem_cons.mp (hstack ▸ h.saved)
    exact ⟨by simp only [perform, pop, hstack, h.begin_of_mem hs], rfl, h.known, hs, hrest⟩

lemma refused (hc : call.Refused states sc.stack) :
    (∃ e, call.perform sc = (.error e, call.remnant sc)) ∧ Sound states (call.remnant sc) := by
  cases call with
  | begin s => exact ⟨⟨.undefinedState s, by rw [perform, h.begin_of_not_mem hc sc.stack]; rfl⟩, h⟩
  | push s =>
    refine ⟨⟨.undefinedState s, by rw [perform, push, h.begin_of_not_mem hc]; rfl⟩, ?_⟩
    exact ⟨(Keeps.stacked sc _).settled h.settled, h.known, h.state, forall_mem_cons.mpr ⟨h.state, h.saved⟩⟩
  | pop => exact ⟨⟨.fault .emptyPop, by rw [perform, pop, hc]; rfl⟩, h⟩

omit h in
lemma enters_of_not_refused (hc : ¬ call.Refused states sc.stack) : ∃ s stack, Enters states sc call s stack := by
  cases call with
  | begin s => exact ⟨s, _, .begin (not_not.mp hc)⟩
  | push s => exact ⟨s, _, .push (not_not.mp hc)⟩
  | pop =>
    obtain ⟨s, rest, hstack⟩ := exists_cons_of_ne_nil hc
    exact ⟨s, rest, .pop hstack⟩

lemma refused_iff (call : StateCall) : (∃ e, (call.perform sc).1 = .error e) ↔ call.Refused states sc.stack := by
  constructor
  · rintro ⟨e, he⟩
    by_contra hc
    obtain ⟨s, stack, hs⟩ := enters_of_not_refused hc
    rw [(h.enters hs).1] at he
    cases he
  · exact fun hc => (h.refused hc).1.imp fun e he => congrArg Prod.fst he

lemma perform (call : StateCall) : Sound states (call.perform sc).2 := by
  by_cases hc : call.Refused states sc.stack
  · obtain ⟨⟨e, he⟩, hsound⟩ := h.refused hc
    rwa [he]
  · obtain ⟨s, stack, hs⟩ := enters_of_not_refused hc
    rw [(h.enters hs).1]
    exact (h.enters hs).2

lemma performAll (calls : List StateCall) : Sound states (StateCall.performAll sc calls) := by
  induction calls generalizing sc with
  | nil => exact h
  | cons call calls ih => exact ih (h.perform call)

lemma run_cons (hr : run sc (call :: calls) = some sc') :
    ∃ s stack, Enters states sc call s stack ∧ run (sc.moved s stack) calls = some sc' := by
  rw [run, foldlM_cons] at hr
  by_cases hc : call.Refused states sc.stack
  · obtain ⟨⟨e, he⟩, -⟩ := h.refused hc
    rw [he] at hr
    cases hr
  · obtain ⟨s, stack, hs⟩ := enters_of_not_refused hc
    rw [(h.enters hs).1] at hr
    exact ⟨s, stack, hs, hr⟩

/-- Calls that restore the states they save, and some that were saved before, leave the others and end in some state. -/
lemma exists_moved (hr : run sc calls = some sc') (saved : List String) (hstack : sc.stack = saved ++ below)
    (hb : balances saved.length calls = true) : ∃ state, sc' = sc.moved state below ∧ Sound states sc' := by
  induction calls generalizing sc saved with
  | nil =>
    obtain rfl := length_eq_zero_iff.mp (eq_of_beq hb)
    obtain rfl := Option.some.inj hr
    exact ⟨sc.state, by rw [← nil_append below, ← hstack]; exact h.settled.symm, h⟩
  | cons call calls ih =>
    obtain ⟨s, stack, hs, hr⟩ := h.run_cons hr
    have hsound := (h.enters hs).2
    cases hs with
    | begin _ =>
      have := ih hsound hr saved hstack hb
      exact this
    | push _ =>
      have := ih hsound hr (sc.state :: saved) (congrArg _ hstack) hb
      exact this
    | pop hrest =>
      cases saved with
      | nil => cases hb
      | cons s' saved =>
        obtain ⟨rfl, rfl⟩ := List.cons.inj (hrest.symm.trans hstack)
        have := ih hsound hr saved rfl hb
        exact this

lemma restored (hb : balances 0 calls = true) (hr : run sc (.push s :: (calls ++ [.pop])) = some sc') : sc' = sc := by
  obtain ⟨_, _, hs, hr⟩ := h.run_cons hr
  have hsound := (h.enters hs).2
  cases hs with
  | push _ =>
    rw [run, foldlM_append] at hr
    obtain ⟨sc₂, hinner, hpop⟩ := Option.bind_eq_some_iff.mp hr
    obtain ⟨t, rfl, hsound⟩ := hsound.exists_moved hinner [] rfl hb
    obtain ⟨_, _, hs, hr⟩ := hsound.run_cons hpop
    cases hs with
    | pop hstack =>
      obtain ⟨rfl, rfl⟩ := List.cons.inj hstack
      exact (Option.some.inj hr).symm.trans h.settled

end Sound

section Built

variable {ds : Declarations (Handler V σ)} {opts : BuildOptions} {built : Built V σ} {logs : Logs}

lemma sound_of_build (h : build ds opts = (.ok built, logs)) : Sound built.states built.scanner := by
  obtain ⟨d, all, hp⟩ := parts_of_build h
  have hkeys : ∀ {keys : List String} {all : List (String × List (Master V σ))},
      List.Forall₂ (fun state e => e.1 = state) keys all → all.map Prod.fst = keys := by
    intro keys all hall
    induction hall with
    | nil => rfl
    | cons he _ ih => rw [map_cons, he, ih]
  have hmasters : (Build.rulesOf d ⟨all⟩).masters.keys = d.states.keys := by
    rw [← hkeys (hp.masters.imp fun _ _ he => he.1)]
    simp only [Build.rulesOf, Build.extendMasters, Registry.keys, List.map_map]
    refine map_congr_left fun e _ => ?_
    simp only [Function.comp]
    split <;> rfl
  have hinitial : initialState ∈ d.states.keys := by
    rw [Registry.keys, hp.reads.states]
    exact mem_cons_self
  refine ⟨settled_of_build h, fun {s} => ?_, ?_, ?_⟩
  · rw [hp.scanner, hp.states, ← hmasters]
    exact Registry.contains_iff_mem_keys _ s
  · rw [hp.scanner, hp.states]
    exact hinitial
  · rw [hp.scanner]
    exact forall_mem_nil _

/-- Whatever state calls were made, the scanner consults what its state has. A call is refused exactly if there is no such
state to enter or no saved one, and then nothing has changed unless a state was to be saved: that has been saved. Calls
between saving a state and restoring it that restore what they save bring back the scanner there was. -/
theorem state_calls_nest (h : build ds opts = (.ok built, logs)) (calls : List StateCall) :
    let sc := StateCall.performAll built.scanner calls
    sc.Settled ∧
    (∀ call : StateCall, (∃ e, (call.perform sc).1 = .error e) ↔ call.Refused built.states sc.stack) ∧
    (∀ (call : StateCall) e, (call.perform sc).1 = .error e → (call.perform sc).2 = call.remnant sc) ∧
    ∀ state inner sc', balances 0 inner = true → run sc (.push state :: (inner ++ [.pop])) = some sc' → sc' = sc := by
  have hsound := (sound_of_build h).performAll calls
  refine ⟨hsound.settled, hsound.refused_iff, fun call e he => ?_, fun state inner sc' hb hr => hsound.restored hb hr⟩
  obtain ⟨⟨e', he'⟩, -⟩ := hsound.refused ((hsound.refused_iff call).mp ⟨e, he⟩)
  rw [he']

end Built

theorem state_calls_nest_escaping : build escaping {} =
    (.ok ⟨Build.start escapingRules, ["INITIAL", "s"], ["A"]⟩, (build escaping {}).2) ∧
    balances 0 [.begin "s", .push "INITIAL", .pop] = true ∧
    run (StateCall.performAll (Build.start escapingRules) [.push "s", .begin "t"])
        (.push "INITIAL" :: ([.begin "s", .push "INITIAL", .pop] ++ [.pop])) =
      some (StateCall.performAll (Build.start escapingRules) [.push "s", .begin "t"]) := by
  refine ⟨build_escaping, rfl, ?_⟩
  have hrun : run (StateCall.performAll (Build.start escapingRules) [.push "s", .begin "t"])
      (.push "INITIAL" :: ([.begin "s", .push "INITIAL", .pop] ++ [.pop])) = some _ := rfl
  rw [hrun, (state_calls_nest build_escaping [.push "s", .begin "t"]).2.2.2 "INITIAL" _ _ rfl hrun]

/-- A state that cannot be entered is refused, but the current one has been saved. -/
theorem refused_push_saves : (build escaping {}).1 = .ok ⟨Build.start escapingRules, ["INITIAL", "s"], ["A"]⟩ ∧
    ((Build.start escapingRules).push "t").1 = .error (.undefinedState "t") ∧
    (Build.start escapingRules).stack = [] ∧ ((Build.start escapingRules).push "t").2.stack = ["INITIAL"] :=
  ⟨congrArg Prod.fst build_escaping, rfl, rfl, rfl⟩

end LispKit.Scanner
