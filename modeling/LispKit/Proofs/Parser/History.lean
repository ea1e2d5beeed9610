import LispKit.Parser.Engine
import LispKit.Proofs.Grammar.Rightmost

/-! What a parser has read and reduced: trees whose leaves are tokens and whose nodes are the calls of rules. -/

namespace LispKit.Parser

open List

variable {S V E : Type}

structure Call (S V : Type) where
  reduction : Reduction S V
  symbol : StackSymbol S V
  recovered : Bool

def Call.production (call : Call S V) : Production S :=
  call.reduction.production

def Call.answered (call : Call S V) : Reduction S V × RuleReply S V E :=
  (call.reduction, .done call.symbol call.recovered)

abbrev History (S V : Type) := ParseTree (Call S V) (StackSymbol S V)

namespace History

open ParseTree

def symbol : History S V → StackSymbol S V
  | .leaf token => token
  | .node call _ => call.symbol

def type : History S V → S
  | .leaf token => token.type
  | .node call _ => call.production.name

mutual

def calls : History S V → List (Call S V)
  | .leaf _ => []
  | .node call children => callsOf children ++ [call]

def callsOf : List (History S V) → List (Call S V)
  | [] => []
  | t :: ts => calls t ++ callsOf ts

end

lemma callsOf_append (ts us : List (History S V)) : callsOf (ts ++ us) = callsOf ts ++ callsOf us := by
  induction ts with
  | nil => rfl
  | cons t ts ih => rw [cons_append, callsOf, callsOf, ih, append_assoc]

lemma words_append (ts us : List (History S V)) : words (ts ++ us) = words ts ++ words us := by
  rw [words_eq, words_eq, words_eq, flatMap_append]

/-- Each call is made with the symbols of the subtrees, in order, and these are of the types that the production has. -/
inductive Proper (productions : List (Production S)) (terminal : S → Prop) : History S V → Prop
  | leaf (token : StackSymbol S V) : terminal token.type → Proper productions terminal (leaf token)
  | node (call : Call S V) (children : List (History S V)) : call.production ∈ productions →
      children.map type = call.production.symbols → call.reduction.arguments = children.map symbol →
      (∀ t ∈ children, Proper productions terminal t) → Proper productions terminal (node call children)

variable {productions : List (Production S)} {terminal : S → Prop} {t : History S V}

lemma Proper.terminal_of_mem (h : Proper productions terminal t) {token : StackSymbol S V}
    (hmem : token ∈ t.word) : terminal token.type := by
  induction h with
  | leaf token' hterm =>
    rw [word, mem_singleton] at hmem
    exact hmem ▸ hterm
  | node call children _ _ _ _ ih =>
    rw [word, words_eq] at hmem
    obtain ⟨t, ht, hmem⟩ := mem_flatMap.mp hmem
    exact ih t ht hmem

def reversed (calls : List (Call S V)) : List (Production S) :=
  (calls.map Call.production).reverse

lemma reversed_append (calls more : List (Call S V)) : reversed (calls ++ more) = reversed more ++ reversed calls := by
  rw [reversed, map_append, reverse_append]
  rfl

lemma rightmost_callsOf {ts : List (History S V)} (hproper : ∀ t ∈ ts, Proper productions terminal t)
    (htree : ∀ t ∈ ts, Rightmost productions terminal (reversed (calls t)) [type t] (t.word.map StackSymbol.type)) :
    Rightmost productions terminal (reversed (callsOf ts)) (ts.map type) ((words ts).map StackSymbol.type) := by
  induction ts with
  | nil => exact .refl []
  | cons t ts ih =>
    have hrest := ih (fun t ht => hproper t (mem_cons_of_mem _ ht)) fun t ht => htree t (mem_cons_of_mem _ ht)
    have hterm : ∀ s ∈ (words ts).map StackSymbol.type, terminal s := by
      intro s hs
      obtain ⟨token, hmem, rfl⟩ := mem_map.mp hs
      rw [words_eq] at hmem
      obtain ⟨u, hu, hmem⟩ := mem_flatMap.mp hmem
      exact (hproper u (mem_cons_of_mem _ hu)).terminal_of_mem hmem
    rw [callsOf, reversed_append, words, map_append]
    exact (hrest.append_left [type t]).trans ((htree t mem_cons_self).append_right hterm)

theorem Proper.rightmost (h : Proper productions terminal t) :
    Rightmost productions terminal (reversed (calls t)) [type t] (t.word.map StackSymbol.type) := by
  induction h with
  | leaf token _ => exact .refl _
  | node call children hpr htypes _ hchildren ih =>
    have hforest := rightmost_callsOf hchildren ih
    rw [htypes] at hforest
    rw [calls, reversed_append, word]
    refine Rightmost.step (u := []) hpr (forall_mem_nil _) ?_
    rwa [nil_append, append_nil]

end History

end LispKit.Parser
