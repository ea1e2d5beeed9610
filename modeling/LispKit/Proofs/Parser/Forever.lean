import LispKit.Proofs.Parser.Fate

/-! Parsers that never stop: a configuration that comes back comes back forever. -/

namespace LispKit.Parser

variable {S V σ E : Type} [DecidableEq S] [Vocabulary S] {h : Host S V σ E} {t : Tables S} {m : Mode}
variable {c c' : Config S V σ}

lemma run_add {n : Nat} (hrun : run h t m n c = .running c') (k : Nat) : run h t m (n + k) c = run h t m k c' := by
  induction n generalizing c with
  | zero =>
    obtain rfl := Progress.running.inj hrun
    rw [Nat.zero_add]
  | succ n ih =>
    rw [Nat.add_right_comm, run]
    rw [run] at hrun
    cases hstep : step h t m c with
    | running c₁ =>
      rw [hstep] at hrun
      exact ih hrun
    | finished v c₁ =>
      rw [hstep] at hrun
      cases hrun
    | failed e c₁ =>
      rw [hstep] at hrun
      cases hrun

lemma isRunning_run_of_le {n k : Nat} (hle : n ≤ k) (hrun : (run h t m k c).isRunning = true) :
    (run h t m n c).isRunning = true := by
  induction n generalizing c k with
  | zero => rfl
  | succ n ih =>
    obtain ⟨k, rfl⟩ := Nat.exists_eq_succ_of_ne_zero (Nat.ne_of_gt (Nat.lt_of_lt_of_le n.succ_pos hle))
    rw [run] at hrun ⊢
    cases hstep : step h t m c with
    | running c₁ =>
      rw [hstep] at hrun
      exact ih (Nat.le_of_succ_le_succ hle) hrun
    | finished v c₁ =>
      rw [hstep] at hrun
      cases hrun
    | failed e c₁ =>
      rw [hstep] at hrun
      cases hrun

lemma isRunning_of_returns {k : Nat} (hrun : run h t m (k + 1) c = .running c) (n : Nat) :
    (run h t m n c).isRunning = true := by
  have hrounds : ∀ i, run h t m ((k + 1) * i) c = .running c := by
    intro i
    induction i with
    | zero => rfl
    | succ i ih => rw [Nat.mul_succ, run_add ih, hrun]
  exact isRunning_run_of_le (Nat.le_mul_of_pos_left n k.succ_pos) (by rw [hrounds]; rfl)

section Samples

deriving instance DecidableEq for StackSymbol
deriving instance DecidableEq for Config

def passiveHost : Host String Unit (List (StackSymbol String Unit)) Empty where
  nextToken tokens := (.ok tokens.head?, tokens.tail)
  place _ := (1, 0)
  apply r tokens := (.done r.symbol false, tokens)
  onError := some fun _ tokens => (.ok {}, tokens)
  display _ := .ok ("NoneType", "None")
  nothing := ()
  errorValue := ()
  ofToken _ := ()

def skipping : Declarations Behaviour where
  file := "skipping"
  attributes := [("tokens", .value (.list [.text "A", .text "B"])),
    ("p_s", .routine ⟨"p_s", some "s : A err B", 1, 1, false, .rule {}⟩),
    ("p_err", .routine ⟨"p_err", some "err : error", 2, 1, false, .rule {}⟩),
    ("p_error", .routine ⟨"p_error", none, 3, 1, false, .onError .log⟩)]
  source := none

def skippingParser : Built :=
  (Parser.build skipping {}).1.toOption.get (by decide +kernel)

def bareToken (type : String) : StackSymbol String Unit :=
  { type := type, value := some (), isToken := true }

lemma skipping_returns : (parse passiveHost skippingParser.tables {} 2 true [bareToken "A", bareToken "A"]).isRunningWith
    (fun c => (run passiveHost skippingParser.tables {} 4 c).isRunningWith fun c' => decide (c' = c)) = true := by
  decide +kernel

end Samples

/-- With a token where it is not expected the parser goes on forever: the error symbol is shifted and reduced, the token
is still not expected, and what was reduced is given up again. -/
theorem skipping_never_stops : ∃ (b : Built) (logs : Logs), Parser.build skipping {} = (.ok b, logs) ∧
    ∀ n, (parse passiveHost b.tables {} n true [bareToken "A", bareToken "A"]).isRunning = true := by
  refine ⟨skippingParser, _, eq_built _, fun n => ?_⟩
  obtain ⟨log, hlog⟩ := exists_run passiveHost skippingParser.tables {} true [bareToken "A", bareToken "A"]
  obtain ⟨c, hc, hreturns⟩ := Progress.exists_running skipping_returns
  obtain ⟨c', hrun, heq⟩ := Progress.exists_running hreturns
  obtain rfl := of_decide_eq_true heq
  rw [hlog] at hc ⊢
  refine isRunning_run_of_le (Nat.le_add_left n 2) ?_
  rw [run_add hc]
  exact isRunning_of_returns hrun n

end LispKit.Parser
