import LispKit.Scanner.Build
import LispKit.Scanner.Scan
import Mathlib.Tactic.Basic

/-! Settled scanners: what a scanner consults is what its rules have for its state, whatever its handlers do. -/

namespace LispKit.Scanner

open List

variable {V σ : Type}

def refreshed (sc : Scanner V σ) : Scanner V σ :=
  { sc with
    masters := sc.rules.masters.getD sc.state []
    ignored := sc.rules.ignored.getD sc.state ""
    onError := sc.rules.onError.getD sc.state none
    onEnd := sc.rules.onEnd.get? sc.state }

def Settled (sc : Scanner V σ) : Prop :=
  sc.refreshed = sc

lemma settled_start (rules : Rules V σ) : (Build.start rules).Settled :=
  rfl

lemma begin_eq (sc : Scanner V σ) (state : String) :
    sc.begin state = if sc.rules.masters.contains state then .ok (refreshed { sc with state := state })
      else .error (.undefinedState state) := by
  have hcontains : sc.rules.masters.contains state = (sc.rules.masters.get? state).isSome := by
    rw [Registry.get?, Option.isSome_map, Bool.eq_iff_iff, find?_isSome, Registry.contains, any_eq_true]
  rw [begin, hcontains]
  cases h : sc.rules.masters.get? state with
  | none => rfl
  | some ms => simp [refreshed, Registry.getD, h]

/-- What no operation changes: the rules, and that the scanner consults what its state has. -/
structure Keeps (sc sc' : Scanner V σ) : Prop where
  rules : sc'.rules = sc.rules
  settled : sc.Settled → sc'.Settled

namespace Keeps

lemma refl (sc : Scanner V σ) : Keeps sc sc :=
  ⟨rfl, id⟩

lemma trans {a b c : Scanner V σ} (h : Keeps a b) (h' : Keeps b c) : Keeps a c :=
  ⟨h'.rules.trans h.rules, h'.settled ∘ h.settled⟩

lemma refreshed (sc : Scanner V σ) (state : String) : Keeps sc (Scanner.refreshed { sc with state := state }) :=
  ⟨rfl, fun _ => rfl⟩

lemma update (sc : Scanner V σ) (stack : List String) (text : Option (List Char)) (position : Int) (length : Nat)
    (line : Int) :
    Keeps sc { sc with stack := stack, text := text, position := position, length := length, line := line } := by
  refine ⟨rfl, fun h => ?_⟩
  rw [Settled, Scanner.refreshed] at h ⊢
  rw [← h]

lemma stacked (sc : Scanner V σ) (stack : List String) : Keeps sc { sc with stack := stack } :=
  update sc stack sc.text sc.position sc.length sc.line

lemma placed (sc : Scanner V σ) (position line : Int) : Keeps sc { sc with position := position, line := line } :=
  update sc sc.stack sc.text position sc.length line

lemma input (sc : Scanner V σ) (text : List Char) : Keeps sc (sc.input text) :=
  update sc sc.stack (some text) 0 text.length sc.line

end Keeps

lemma keeps_push (sc : Scanner V σ) (state : String) : Keeps sc (sc.push state).2 := by
  simp only [push, begin_eq]
  split
  · rename_i sc' h
    split at h
    · obtain rfl := Except.ok.inj h
      exact (Keeps.stacked sc _).trans (.refreshed { sc with stack := sc.state :: sc.stack } state)
    · cases h
  · exact .stacked sc _

lemma keeps_pop (sc : Scanner V σ) : Keeps sc sc.pop.2 := by
  simp only [pop, begin_eq]
  split
  · exact .refl sc
  · rename_i state rest _
    split
    · rename_i sc' h
      split at h
      · obtain rfl := Except.ok.inj h
        exact (Keeps.stacked sc _).trans (.refreshed { sc with stack := rest } state)
      · cases h
    · exact .stacked sc _

lemma keeps_perform (e : Effect V σ) (t : Token V) (sc : Scanner V σ) (host : σ) :
    Keeps sc (e.perform t sc host).2.1 := by
  cases e with
  | edit f =>
    simp only [Effect.perform]
    split <;> exact .refl sc
  | countLines f =>
    simp only [Effect.perform]
    split
    · exact .placed sc sc.position _
    · exact .refl sc
  | begin state =>
    simp only [Effect.perform, begin_eq]
    split
    · rename_i sc' h
      split at h
      · obtain rfl := Except.ok.inj h
        exact .refreshed sc state
      · cases h
    · exact .refl sc
  | push state => exact keeps_push sc state
  | pop => exact keeps_pop sc
  | skip n => exact .placed sc _ sc.line

lemma keeps_performAll (es : List (Effect V σ)) (t : Token V) (sc : Scanner V σ) (host : σ) :
    Keeps sc (performAll es t sc host).2.1 := by
  induction es generalizing t sc host with
  | nil => exact .refl sc
  | cons e es ih =>
    have he := keeps_perform e t sc host
    rw [performAll]
    split
    · rename_i h
      rw [h] at he
      exact he.trans (ih _ _ _)
    · rename_i h
      rw [h] at he
      exact he

section Scanning

variable {mk : Maker V} {next : Scanner V σ → σ → Outcome V σ} (hnext : ∀ sc host, Keeps sc (next sc host).scanner)

include hnext

lemma keeps_run (h : Handler V σ) (t : Token V) (sc : Scanner V σ) (host : σ) :
    Keeps sc (h.run next t sc host).scanner := by
  rw [Handler.run, Script.run]
  generalize h.call t sc.situation host = s
  have hp := keeps_performAll s.effects t sc host
  generalize performAll s.effects t sc host = r at hp ⊢
  rcases r with ⟨e | t, sc', host'⟩
  · exact hp
  · dsimp only
    split
    · exact hp
    · exact hp
    · split
      · exact hp
      · exact hp.trans ((Keeps.input sc' _).trans (hnext _ _))

lemma keeps_atEnd (position : Int) (sc : Scanner V σ) (host : σ) :
    Keeps sc (atEnd mk next position sc host).scanner := by
  rw [atEnd]
  split
  · exact (Keeps.placed sc position sc.line).trans (keeps_run hnext _ _ _ _)
  · exact .placed sc (position + 1) sc.line

omit hnext in
def Round.scanner : Round V σ → Scanner V σ
  | done o => o.scanner
  | more _ _ sc _ => sc

omit hnext in
lemma scanner_afterHandler (o : Outcome V σ) (f : Scanner V σ → String) : (afterHandler o f).scanner = o.scanner := by
  rw [afterHandler]
  split <;> rfl

lemma keeps_round (w : Window) (position : Int) (ignored : String) (sc : Scanner V σ) (host : σ) :
    Keeps sc (round mk next w position ignored sc host).scanner := by
  rw [round]
  split
  · exact .refl sc
  · split
    · exact .refl sc
    · split
      · exact .refl sc
      · dsimp only
        split
        · rename_i target _
          rcases target with f | target
          · exact .refl sc
          · cases target with
            | ignored => exact .refl sc
            | token type => exact .placed sc _ sc.line
            | handled type h =>
              simp only [matched, scanner_afterHandler]
              exact (Keeps.placed sc _ sc.line).trans (keeps_run hnext _ _ _ _)
        · split
          · exact .placed sc (position + 1) sc.line
          · rw [illegal]
            dsimp only
            split
            · exact .placed sc position sc.line
            · rename_i h _
              have hrun := (Keeps.placed sc position sc.line).trans
                (keeps_run hnext h ⟨"error", mk.ofText (String.ofList (tailFrom (sc.text.getD []) position)), sc.line,
                  position⟩ { sc with position := position } host)
              split
              · exact hrun
              · split
                · exact hrun
                · rw [scanner_afterHandler]
                  exact hrun

lemma keeps_rounds (w : Window) (n : Nat) (position : Int) (ignored : String) (sc : Scanner V σ) (host : σ) :
    Keeps sc (rounds mk next w n position ignored sc host).scanner := by
  induction n generalizing position ignored sc host with
  | zero => exact .refl sc
  | succ n ih =>
    rw [rounds]
    split
    · have hround : Keeps sc (round mk next w position ignored sc host).scanner :=
        keeps_round hnext w position ignored sc host
      split
      · rename_i h
        rwa [h] at hround
      · rename_i h
        rw [h] at hround
        exact hround.trans (ih _ _ _ _)
    · exact keeps_atEnd hnext position sc host

end Scanning

lemma keeps_tokenWithin (mk : Maker V) (steps depth : Nat) (sc : Scanner V σ) (host : σ) :
    Keeps sc (tokenWithin mk steps depth sc host).scanner := by
  induction depth generalizing sc host with
  | zero => exact .refl sc
  | succ depth ih =>
    rw [tokenWithin]
    split
    · split
      · exact .refl sc
      · exact keeps_atEnd ih _ _ _
    · exact keeps_rounds ih _ _ _ _ _ _

lemma mem_of_firstMatch {position length : Nat} {rest : List Char} {ms : List (Master V σ)} {t : Target V σ}
    (h : firstMatch position rest ms = some (length, .ok t)) : ∃ m ∈ ms, ∃ n, (n, t) ∈ m.targets := by
  induction ms with
  | nil => cases h
  | cons m ms ih =>
    rw [firstMatch] at h
    split at h
    · obtain ⟨m', hm, hn⟩ := ih h
      exact ⟨m', mem_cons_of_mem m hm, hn⟩
    · rename_i found _
      obtain ⟨-, ht⟩ := Prod.mk.inj (Option.some.inj h)
      refine ⟨m, mem_cons_self, ?_⟩
      cases hg : found.lastGroup with
      | none =>
        rw [hg] at ht
        cases ht
      | some n =>
        simp only [Master.target, hg] at ht
        split at ht
        · rename_i t' hl
          obtain rfl := Except.ok.inj ht
          obtain ⟨before, after, heq, -⟩ := lookup_eq_some_iff.mp hl
          exact ⟨n, heq ▸ mem_append_right _ mem_cons_self⟩
        · split at ht <;> cases ht

end LispKit.Scanner
