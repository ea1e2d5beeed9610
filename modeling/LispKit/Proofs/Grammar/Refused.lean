import LispKit.Proofs.Grammar.Consistent

/-! Refused productions: what a declaration that is refused has changed by then. -/

namespace LispKit.Grammar

open List

/-- The quoted symbols that a declaration makes terminals before it is refused. -/
def entered (g : Grammar String) (name : String) (symbols : List String) : List String :=
  if g.isTerminal name || !isIdentifier name then [] else literals (symbols.takeWhile isAccepted)

/-- The precedence that a declaration notes as used before it is refused: only a repeated production comes so far. -/
def noted (g : Grammar String) (symbols : List String) (e : DeclareFailure) : List String :=
  if e.isDuplicate then g.newlyUsed (symbols.map resolved) else []

variable {g g' : Grammar String} {symbols quoted : List String} {place : Place} {name rule : String}
  {e : DeclareFailure}

lemma resolveSymbols_error (h : resolveSymbols place name symbols g = (.error e, g')) : e.isDuplicate = false := by
  induction symbols generalizing g with
  | nil => cases h
  | cons s rest ih =>
    obtain ⟨-, heq⟩ | ⟨-, e', he', heq⟩ := resolveSymbols_cons s rest g
    · rw [heq] at h
      rcases hrest : resolveSymbols place name rest (g.quoting (literals [s])) with ⟨e' | _, g₁⟩
      · rw [hrest] at h
        obtain ⟨he, rfl⟩ := Prod.mk.inj h
        obtain rfl := Except.error.inj he
        exact ih hrest
      · rw [hrest] at h
        cases (Prod.mk.inj h).1
    · obtain ⟨he, -⟩ := Prod.mk.inj (heq.symm.trans h)
      exact Except.error.inj he ▸ he'

lemma resolvePrecedence_error (h : resolvePrecedence g place symbols = .error e) : e.isDuplicate = false := by
  unfold resolvePrecedence at h
  split at h
  · split at h
    · split at h
      · cases h
        rfl
      · split at h
        · cases h
          rfl
        · split at h
          · cases h
            rfl
          · cases h
    · cases h
      rfl
  · split at h <;> cases h

lemma declare_error (h : declare g name symbols place rule = (.error e, g')) :
    g' = { g.quoting (entered g name symbols) with usedPrecedence := g.usedPrecedence ++ noted g symbols e } := by
  have hrefused : ∀ {e : DeclareFailure} (ss : List String), e.isDuplicate = false → entered g name symbols = ss →
      g.quoting ss = { g.quoting (entered g name symbols) with usedPrecedence := g.usedPrecedence ++ noted g symbols e } := by
    rintro e _ he rfl
    rw [noted, he, if_neg Bool.false_ne_true, append_nil]
    rfl
  unfold declare at h
  split at h
  · rename_i hterm
    obtain ⟨he, rfl⟩ := Prod.mk.inj h
    obtain rfl := Except.error.inj he
    exact hrefused [] rfl (if_pos (by simp [hterm]))
  · rename_i hterm
    split at h
    · rename_i hname
      obtain ⟨he, rfl⟩ := Prod.mk.inj h
      obtain rfl := Except.error.inj he
      exact hrefused [] rfl (if_pos (by simp [hname]))
    · rename_i hname
      have hentered : entered g name symbols = literals (symbols.takeWhile isAccepted) := if_neg (by simp [hterm, hname])
      split at h
      · rename_i e' g₁ hsymbols
        obtain ⟨he, rfl⟩ := Prod.mk.inj h
        obtain rfl := Except.error.inj he
        rw [← hrefused _ (resolveSymbols_error hsymbols) hentered, ← resolveSymbols_snd place name symbols g, hsymbols]
      · rename_i symbols₁ g₁ hsymbols
        obtain ⟨haccepted, rfl, rfl⟩ := resolveSymbols_ok hsymbols
        rw [takeWhile_eq_self_iff.mpr haccepted] at hentered
        split at h
        · rename_i hprecedence
          obtain ⟨he, rfl⟩ := Prod.mk.inj h
          obtain rfl := Except.error.inj he
          exact hrefused _ (resolvePrecedence_error hprecedence) hentered
        · rename_i precedence symbols₂ g₂ hprecedence
          obtain ⟨rfl, -⟩ := resolvePrecedence_ok hprecedence
          split at h
          · obtain ⟨he, rfl⟩ := Prod.mk.inj h
            obtain rfl := Except.error.inj he
            rw [hentered]
            rfl
          · cases (Prod.mk.inj h).1

lemma quoting_of_terminals (h : ∀ s ∈ quoted, g.isTerminal s = true) : g.quoting quoted = g := by
  have hfold : quoted.foldl (fun r s => r.insertIfNew s []) g.terminals = g.terminals := by
    induction quoted with
    | nil => rfl
    | cons s quoted ih =>
      rw [forall_mem_cons] at h
      rw [foldl_cons, Registry.insertIfNew, if_pos (show g.terminals.contains s = true from h.1), ih h.2]
  rw [quoting, hfold]

/-- A declaration that is refused leaves everything but the terminals and the precedences that are used as it was. The
terminals then have the symbols too that it quotes before the first refused symbol, and the precedence that it names
is used if it repeats a production. So nothing has changed exactly if they were terminals and it was used before. -/
theorem refused_unchanged_iff (h : declare g name symbols place rule = (.error e, g')) :
    g' = { g.quoting (entered g name symbols) with usedPrecedence := g.usedPrecedence ++ noted g symbols e } ∧
    (g' = g ↔ (∀ s ∈ entered g name symbols, g.isTerminal s = true) ∧ noted g symbols e = []) := by
  have hg := declare_error h
  refine ⟨hg, ?_, ?_⟩
  · intro heq
    rw [heq] at hg
    constructor
    · intro s hs
      have hterm := (isTerminal_quoting (g := g) (entered g name symbols) s).mpr (.inr hs)
      rw [isTerminal, hg]
      exact hterm
    · have hused : g.usedPrecedence = g.usedPrecedence ++ noted g symbols e := congrArg usedPrecedence hg
      simpa using hused
  · rintro ⟨hterm, hnone⟩
    rw [hg, hnone, quoting_of_terminals hterm, append_nil]

def oneNumber : Grammar String :=
  (Declaration.performAll (ofTerminals ["NUM"])
    [.precedence "U" "left" 1, .production "e" ["NUM"] ⟨"g", 0⟩ ""]).get (by decide +kernel)

lemma exists_refusal {r : Except DeclareFailure Unit × Grammar String} (h : r.1.isOk = false) : ∃ e, r = (.error e, r.2) := by
  rcases r with ⟨e | _, g⟩
  · exact ⟨e, rfl⟩
  · cases h

theorem refused_unchanged_oneNumber :
    ∃ e g', declare oneNumber "e" ["NUM"] ⟨"g", 1⟩ "" = (.error e, g') ∧ g' = oneNumber := by
  obtain ⟨e, he⟩ := exists_refusal (r := declare oneNumber "e" ["NUM"] ⟨"g", 1⟩ "") (by decide +kernel)
  refine ⟨e, _, he, (refused_unchanged_iff he).2.mpr ⟨by decide +kernel, ?_⟩⟩
  rw [noted, show oneNumber.newlyUsed (["NUM"].map resolved) = [] by decide +kernel, ite_self]

/-- A quoted symbol before a refused one stays a terminal, and a repeated production uses the precedence that it names. -/
theorem refused_leaves_traces :
    (∃ e g', declare oneNumber "s" ["'+'", "?"] ⟨"g", 1⟩ "" = (.error e, g') ∧
      oneNumber.isTerminal "+" = false ∧ g'.isTerminal "+" = true) ∧
    ∃ e g', declare oneNumber "e" ["NUM", "%prec", "U"] ⟨"g", 1⟩ "" = (.error e, g') ∧
      oneNumber.usedPrecedence = [] ∧ g'.usedPrecedence = ["U"] := by
  obtain ⟨e, he⟩ := exists_refusal (r := declare oneNumber "s" ["'+'", "?"] ⟨"g", 1⟩ "") (by decide +kernel)
  obtain ⟨e', he'⟩ := exists_refusal (r := declare oneNumber "e" ["NUM", "%prec", "U"] ⟨"g", 1⟩ "") (by decide +kernel)
  exact ⟨⟨e, _, he, by decide +kernel, by decide +kernel⟩, e', _, he', by decide +kernel, by decide +kernel⟩

end LispKit.Grammar
