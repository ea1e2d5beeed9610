import LispKit.Proofs.Scanner.Built

/-! What is read from declarations that are not refused. -/

namespace LispKit

open List Registry

namespace Scanner

variable {V σ : Type}

namespace Declared

variable {ds : Declarations (Handler V σ)} {d e : Declared V σ}

lemma returns_refuse {text : String} (h : (d.refuse text).Returns e) : e = { d with failed := true } := by
  obtain ⟨_, -, h⟩ := h.bind
  exact h.pure.symm

section States

def stateEntry? : Datum → Option (String × StateKind)
  | .tuple [.text name, .text "inclusive"] => some (name, .inclusive)
  | .tuple [.text name, .text "exclusive"] => some (name, .exclusive)
  | _ => none

def stateItems (states : Option Datum) : List Datum :=
  match states.filter Datum.isTrue with
  | some (.list entries) | some (.tuple entries) => entries
  | _ => []

lemma returns_readState {entry : Datum} (h : (d.readState entry).Returns e) : e = { d with failed := true } ∨
    ∃ s, stateEntry? entry = some s ∧ d.states.contains s.1 = false ∧
      e = { d with states := ⟨d.states.entries ++ [s]⟩ } := by
  have hadd : ∀ {name : String} {k : StateKind}, (if d.states.contains name then
      d.refuse ("State " ++ Text.quoted name ++ " already defined")
      else pure { d with states := d.states.insert name k } : Building (Declared V σ)).Returns e →
      e = { d with failed := true } ∨
        d.states.contains name = false ∧ e = { d with states := ⟨d.states.entries ++ [(name, k)]⟩ } := by
    intro name k h
    split at h
    · exact .inl (returns_refuse h)
    · rename_i hnew
      refine .inr ⟨Bool.eq_false_iff.mpr hnew, ?_⟩
      simp only [← h.pure, Registry.insert, if_neg hnew]
  unfold readState at h
  split at h
  · split at h
    · dsimp only at h
      split at h
      · exact (hadd h).imp_right fun h => ⟨_, rfl, h⟩
      · exact (hadd h).imp_right fun h => ⟨_, rfl, h⟩
      · exact .inl (returns_refuse h)
    · exact .inl (returns_refuse h)
  · exact .inl (returns_refuse h)

structure StatesRead (entries : List Datum) (d e : Declared V σ) : Prop where
  same : e = { d with states := e.states, failed := e.failed }
  accepted : e.failed = false → d.failed = false
  states : e.failed = false → e.states.entries = d.states.entries ++ entries.filterMap stateEntry?
  nodup : d.states.keys.Nodup → e.states.keys.Nodup

lemma statesRead_refused (entries : List Datum) : StatesRead entries d { d with failed := true } :=
  ⟨rfl, Bool.noConfusion, Bool.noConfusion, id⟩

lemma statesRead_foldlM {entries : List Datum} (h : (entries.foldlM readState d).Returns e) : StatesRead entries d e := by
  induction entries generalizing d with
  | nil =>
    obtain rfl := h.pure
    exact ⟨rfl, id, fun _ => (append_nil _).symm, id⟩
  | cons entry entries ih =>
    rw [foldlM_cons] at h
    obtain ⟨f, hf, h⟩ := h.bind
    have hrest := ih h
    obtain rfl | ⟨s, hs, hnew, rfl⟩ := returns_readState hf
    · refine ⟨?_, ?_, ?_, hrest.nodup⟩
      · rw [hrest.same]
      · exact fun he => Bool.noConfusion (hrest.accepted he)
      · exact fun he => Bool.noConfusion (hrest.accepted he)
    · refine ⟨?_, hrest.accepted, ?_, ?_⟩
      · rw [hrest.same]
      · intro he
        rw [hrest.states he, filterMap_cons_some hs, append_assoc]
        rfl
      · intro hd
        apply hrest.nodup
        have hname : s.1 ∉ d.states.keys := by
          rw [← contains_iff_mem_keys, hnew]
          exact Bool.false_ne_true
        simp only [Registry.keys, map_append, map_cons, map_nil]
        refine nodup_append.mpr ⟨hd, by simp, ?_⟩
        rintro a ha b hb rfl
        exact hname (mem_singleton.mp hb ▸ ha)

lemma statesRead_readStates {states : Option Datum} (h : (d.readStates states).Returns e) :
    StatesRead (stateItems states) d e := by
  unfold readStates at h
  unfold stateItems
  split at h
  · obtain rfl := h.pure
    simp only [*]
    exact ⟨rfl, id, fun _ => (append_nil _).symm, id⟩
  · simp only [*]
    exact statesRead_foldlM h
  · simp only [*]
    exact statesRead_foldlM h
  · rw [returns_refuse h]
    exact statesRead_refused _

end States

section Rules

def routinesIn (known : List String) (state : String) (rule : String × Attribute (Handler V σ)) :
    List (String × Routine (Handler V σ)) :=
  match RuleName.read rule.1 known, rule.2 with
  | .ok parts, .routine r =>
    if parts.token = "error" ∨ parts.token = "eof" ∨ parts.token = "ignore" then []
    else List.replicate (parts.states.count state) (rule.1, r)
  | _, _ => []

def textsIn (known : List String) (state : String) (rule : String × Attribute (Handler V σ)) : List (String × String) :=
  match RuleName.read rule.1 known, rule.2 with
  | .ok parts, .value (.text s) =>
    if parts.token = "ignore" ∨ parts.token = "error" then [] else List.replicate (parts.states.count state) (rule.1, s)
  | _, _ => []

lemma getD_addTo {α : Type} (states : List String) (a : α) (r : Registry String (List α)) (state : String) :
    (addTo states a r).getD state [] = r.getD state [] ++ List.replicate (states.count state) a := by
  induction states generalizing r with
  | nil => exact (append_nil _).symm
  | cons s states ih =>
    rw [addTo, foldl_cons, ← addTo, ih, count_cons]
    by_cases hs : s = state
    · subst hs
      simp [Registry.update, Registry.getD, get?_insert_self, replicate_succ]
    · have hne : (s == state) = false := beq_eq_false_iff_ne.mpr hs
      simp [Registry.update, Registry.getD, get?_insert_of_ne _ _ hne, hne]

structure RuleRead (rule : String × Attribute (Handler V σ)) (d e : Declared V σ) : Prop where
  name : ∃ parts, RuleName.read rule.1 d.states.keys = .ok parts ∧
    e.tokenNames = d.tokenNames.insert rule.1 parts.token
  states : e.states = d.states
  accepted : e.failed = false → d.failed = false
  routines : ∀ s, e.routines.getD s [] = d.routines.getD s [] ++ routinesIn d.states.keys s rule
  texts : ∀ s, e.texts.getD s [] = d.texts.getD s [] ++ textsIn d.states.keys s rule

lemma ruleRead {file : String} {rule : String × Attribute (Handler V σ)} (h : (readRule file d rule).Returns e) :
    RuleRead rule d e := by
  obtain ⟨parts, hparts, h⟩ := h.bind
  have hread := returns_faulty hparts
  obtain ⟨name, a⟩ := rule
  dsimp only at h hread
  split at h
  · unfold readRoutine at h
    split at h
    · obtain rfl := h.pure
      exact ⟨⟨parts, hread, rfl⟩, rfl, id, by simp [routinesIn, *], by simp [textsIn, hread]⟩
    · split at h
      · obtain rfl := h.pure
        exact ⟨⟨parts, hread, rfl⟩, rfl, id, by simp [routinesIn, *], by simp [textsIn, hread]⟩
      · split at h
        · obtain rfl := returns_refuse h
          exact ⟨⟨parts, hread, rfl⟩, rfl, Bool.noConfusion, by simp [routinesIn, *], by simp [textsIn, hread]⟩
        · obtain rfl := h.pure
          exact ⟨⟨parts, hread, rfl⟩, rfl, id, by simp [routinesIn, getD_addTo, *], by simp [textsIn, hread]⟩
  · unfold readText at h
    split at h
    · obtain rfl := (Logging.Returns.of_ite h).pure
      exact ⟨⟨parts, hread, rfl⟩, rfl, id, by simp [routinesIn, hread], by simp [textsIn, *]⟩
    · split at h
      · obtain rfl := returns_refuse h
        exact ⟨⟨parts, hread, rfl⟩, rfl, Bool.noConfusion, by simp [routinesIn, hread], by simp [textsIn, *]⟩
      · obtain rfl := h.pure
        exact ⟨⟨parts, hread, rfl⟩, rfl, id, by simp [routinesIn, hread], by simp [textsIn, getD_addTo, *]⟩
  · rename_i v hv _
    obtain rfl := returns_refuse h
    refine ⟨⟨parts, hread, rfl⟩, rfl, Bool.noConfusion, by simp [routinesIn, hread], fun s => ?_⟩
    cases v with
    | text t => exact (hv t rfl).elim
    | _ => simp [textsIn, hread]

structure RulesRead (rules : List (String × Attribute (Handler V σ))) (d e : Declared V σ) : Prop where
  states : e.states = d.states
  accepted : e.failed = false → d.failed = false
  routines : ∀ s, e.routines.getD s [] = d.routines.getD s [] ++ rules.flatMap (routinesIn d.states.keys s)
  texts : ∀ s, e.texts.getD s [] = d.texts.getD s [] ++ rules.flatMap (textsIn d.states.keys s)
  name : ∀ rule ∈ rules, ∃ parts, RuleName.read rule.1 d.states.keys = .ok parts ∧
    ((rules.map Prod.fst).Nodup → e.tokenNames.get? rule.1 = some parts.token)
  others : ∀ n, n ∉ rules.map Prod.fst → e.tokenNames.get? n = d.tokenNames.get? n

lemma rulesRead {file : String} {rules : List (String × Attribute (Handler V σ))}
    (h : (rules.foldlM (readRule file) d).Returns e) : RulesRead rules d e := by
  induction rules generalizing d with
  | nil =>
    obtain rfl := h.pure
    exact ⟨rfl, id, by simp, by simp, by simp, fun _ _ => rfl⟩
  | cons rule rules ih =>
    rw [foldlM_cons] at h
    obtain ⟨f, hf, h⟩ := h.bind
    have hone := ruleRead hf
    have hmore := ih h
    obtain ⟨parts, hread, hnames⟩ := hone.name
    refine ⟨hmore.states.trans hone.states, hone.accepted ∘ hmore.accepted, ?_, ?_, ?_, ?_⟩
    · intro s
      rw [hmore.routines, hone.routines, hone.states, flatMap_cons, append_assoc]
    · intro s
      rw [hmore.texts, hone.texts, hone.states, flatMap_cons, append_assoc]
    · rintro r (_ | ⟨_, hr⟩)
      · refine ⟨parts, hread, fun hnodup => ?_⟩
        rw [hmore.others _ (nodup_cons.mp hnodup).1, hnames, get?_insert_self]
      · obtain ⟨parts, hparts, htoken⟩ := hmore.name r hr
        exact ⟨parts, hone.states ▸ hparts, fun hnodup => htoken (nodup_cons.mp hnodup).2⟩
    · intro n hn
      obtain ⟨hne, hn⟩ := not_or.mp (mem_cons.not.mp hn)
      rw [hmore.others n hn, hnames]
      exact get?_insert_of_ne _ _ (beq_eq_false_iff_ne.mpr (Ne.symm hne))

def ruleAttributes (ds : Declarations (Handler V σ)) : List (String × Attribute (Handler V σ)) :=
  ds.attributes.filter fun a => ruleMark.isPrefixOf a.1.toList

/-- What declarations say that are not refused: the states in order, and for each of them the routines by their lines and
the texts by their lengths. -/
structure Reads (ds : Declarations (Handler V σ)) (d : Declared V σ) : Prop where
  states : d.states.entries = (initialState, .inclusive) :: (stateItems (ds.value? "states")).filterMap stateEntry?
  nodup : d.states.keys.Nodup
  routines : ∀ s, d.routines.getD s [] =
    sorted (fun a b => a.2.line ≤ b.2.line) ((ruleAttributes ds).flatMap (routinesIn d.states.keys s))
  texts : ∀ s, d.texts.getD s [] =
    sorted (fun a b => b.2.length ≤ a.2.length) ((ruleAttributes ds).flatMap (textsIn d.states.keys s))
  name : ∀ rule ∈ ruleAttributes ds, ∃ parts, RuleName.read rule.1 d.states.keys = .ok parts ∧
    ((ds.attributes.map Prod.fst).Nodup → d.tokenNames.get? rule.1 = some parts.token)

lemma getD_map_sorted {α : Type} (le : α → α → Bool) (r : Registry String (List α)) (s : String) :
    (⟨r.entries.map fun e => (e.1, sorted le e.2)⟩ : Registry String (List α)).getD s [] = sorted le (r.getD s []) := by
  simp only [Registry.getD, Registry.get?, find?_map, Function.comp_def, Option.map_map]
  cases r.entries.find? fun e => e.1 == s with
  | none => rfl
  | some e => rfl

lemma reads_of_read (h : (read ds).Returns d) (hd : d.failed = false) : Reads ds d := by
  obtain ⟨d₁, h₁, h⟩ := h.bind
  obtain ⟨d₂, h₂, h⟩ := h.bind
  have hfirst : d₁ = { ({} : Declared V σ) with tokens := d₁.tokens, failed := d₁.failed } := by
    unfold readTokens at h₁
    split at h₁
    · rw [returns_refuse h₁]
    · rw [← h₁.pure]
    · rw [← h₁.pure]
    · rw [returns_refuse h₁]
  have hstates := statesRead_readStates h₂
  unfold readRules at h
  dsimp only at h
  split at h
  · rw [returns_refuse h] at hd
    cases hd
  · obtain ⟨d₃, h₃, h⟩ := h.bind
    obtain rfl := h.pure
    have hrules := rulesRead h₃
    have hd₂ : d₂.failed = false := hrules.accepted hd
    have hempty : d₂.routines = {} ∧ d₂.texts = {} := by
      rw [hstates.same, readLiterals, hfirst]
      exact ⟨rfl, rfl⟩
    have hstart : d₁.states = ⟨[(initialState, .inclusive)]⟩ := by
      rw [hfirst]
    have hkeys : d₃.sortRules.states.keys = d₂.states.keys := congrArg Registry.keys hrules.states
    refine ⟨?_, ?_, ?_, ?_, ?_⟩
    · exact (congrArg Registry.entries hrules.states).trans ((hstates.states hd₂).trans (by rw [readLiterals, hstart]; rfl))
    · rw [hkeys]
      apply hstates.nodup
      rw [readLiterals, hstart]
      exact nodup_cons.mpr ⟨not_mem_nil, nodup_nil⟩
    · intro s
      rw [hkeys]
      refine (getD_map_sorted _ d₃.routines s).trans (congrArg _ ?_)
      rw [hrules.routines, hempty.1]
      rfl
    · intro s
      rw [hkeys]
      refine (getD_map_sorted _ d₃.texts s).trans (congrArg _ ?_)
      rw [hrules.texts, hempty.2]
      rfl
    · intro rule hr
      obtain ⟨parts, hparts, htoken⟩ := hrules.name rule hr
      exact ⟨parts, hkeys ▸ hparts, fun hnodup => htoken (hnodup.sublist (filter_sublist.map _))⟩

end Rules

section Checks

variable {flags : Pattern.Flags} {file : String} {items : List Datum}

structure Checked (d e : Declared V σ) : Prop where
  same : e = { d with failed := e.failed }
  accepted : e.failed = false → d.failed = false

lemma Checked.refl (d : Declared V σ) : Checked d d :=
  ⟨rfl, id⟩

lemma Checked.trans {f : Declared V σ} (h : Checked d e) (h' : Checked e f) : Checked d f := by
  refine ⟨?_, h.accepted ∘ h'.accepted⟩
  rw [h'.same, h.same]

lemma checked_refuse {text : String} (h : (d.refuse text).Returns e) : Checked d e ∧ e.failed = true := by
  obtain rfl := returns_refuse h
  exact ⟨⟨rfl, Bool.noConfusion⟩, rfl⟩

lemma checked_foldlM {α : Type} {f : Declared V σ → α → Building (Declared V σ)} {ok : α → Prop} {xs : List α}
    (hf : ∀ b e x, Checked d b → (f b x).Returns e → Checked b e ∧ (e.failed = false → ok x))
    (h : (xs.foldlM f d).Returns e) : Checked d e ∧ (e.failed = false → ∀ x ∈ xs, ok x) := by
  suffices hs : ∀ b, Checked d b → (xs.foldlM f b).Returns e → Checked b e ∧ (e.failed = false → ∀ x ∈ xs, ok x) from
    hs d (.refl d) h
  clear h
  induction xs with
  | nil =>
    intro b _ h
    obtain rfl := h.pure
    exact ⟨.refl b, fun _ _ hx => (not_mem_nil hx).elim⟩
  | cons x xs ih =>
    intro b hb h
    rw [foldlM_cons] at h
    obtain ⟨c, hc, h⟩ := h.bind
    obtain ⟨hone, hx⟩ := hf b c x hb hc
    obtain ⟨hmore, hxs⟩ := ih c (hb.trans hone) h
    exact ⟨hone.trans hmore, fun he => forall_mem_cons.mpr ⟨hx (hmore.accepted he), hxs he⟩⟩

lemma checked_tokens {seen : List String} (h : (d.checkTokensFrom seen items).Returns e) : Checked d e := by
  induction items generalizing d seen with
  | nil =>
    obtain rfl := h.pure
    exact .refl _
  | cons item items ih =>
    cases item with
    | text name =>
      rw [checkTokensFrom] at h
      have h := Logging.Returns.of_ite h
      have h : (checkTokensFrom { d with failed := d.failed || !isTokenName name } (name :: seen) items).Returns e := by
        split at h
        · obtain ⟨_, -, h⟩ := h.bind
          obtain ⟨_, -, h⟩ := h.bind
          exact h
        · exact h
      refine .trans ⟨rfl, fun hd => ?_⟩ (ih h)
      exact (Bool.or_eq_false_iff.mp hd).1
    | _ => exact h.throw.elim

lemma checked_literalItems (h : (d.checkLiteralItems items).Returns e) : Checked d e := by
  induction items generalizing d with
  | nil =>
    obtain rfl := h.pure
    exact .refl _
  | cons item items ih =>
    unfold checkLiteralItems at h
    obtain ⟨-, h⟩ | ⟨-, h⟩ := h.ite
    · exact ih h
    · split at h
      · obtain ⟨f, hf, h⟩ := h.bind
        exact (checked_refuse hf).1.trans (ih h)
      · exact h.throw.elim
      · exact (checked_refuse h).1

lemma checked_literals (h : d.checkLiterals.Returns e) : Checked d e := by
  unfold checkLiterals at h
  split at h
  · exact (checked_refuse h).1
  · exact checked_literalItems h

def Passes (flags : Pattern.Flags) (name pattern : String) : Prop :=
  ∃ c, Pattern.compile (groupText name pattern) flags = .ok c ∧ c.match? 0 [] = none

lemma checked_pattern {name pattern matchesEmpty invalid hash : String}
    (h : (d.checkPattern flags name pattern matchesEmpty invalid hash).Returns e) :
    Checked d e ∧ (e.failed = false → Passes flags name pattern) := by
  unfold checkPattern at h
  split at h
  · rename_i c hc
    split at h
    · obtain ⟨h, he⟩ := checked_refuse h
      exact ⟨h, fun hn => Bool.noConfusion (hn.symm.trans he)⟩
    · rename_i hempty
      obtain rfl := h.pure
      exact ⟨.refl _, fun _ => ⟨c, hc, by simpa using hempty⟩⟩
  · obtain ⟨f, hf, h⟩ := h.bind
    obtain ⟨hf, hfailed⟩ := checked_refuse hf
    split at h
    · obtain ⟨h, he⟩ := checked_refuse h
      exact ⟨hf.trans h, fun hn => Bool.noConfusion (hn.symm.trans he)⟩
    · obtain rfl := h.pure
      exact ⟨hf, fun hn => Bool.noConfusion (hn.symm.trans hfailed)⟩

lemma checked_parameters {r : Routine (Handler V σ)} (h : (d.checkParameters file r).Returns e) : Checked d e := by
  unfold checkParameters at h
  split at h
  · exact (checked_refuse h).1
  · split at h
    · exact (checked_refuse h).1
    · obtain rfl := h.pure
      exact .refl _

lemma checked_routine {rule : String × Routine (Handler V σ)} (h : (checkRoutine file flags d rule).Returns e) :
    Checked d e ∧ (e.failed = false → Passes flags rule.1 (rule.2.doc.getD "")) := by
  unfold checkRoutine at h
  dsimp only at h
  split at h
  · rename_i hne
    refine ⟨checked_parameters h, fun he => ?_⟩
    unfold checkParameters at h
    split at h
    · exact Bool.noConfusion (he.symm.trans (checked_refuse h).2)
    · rw [if_pos (by omega)] at h
      exact Bool.noConfusion (he.symm.trans (checked_refuse h).2)
  · split at h
    · obtain ⟨h, he⟩ := checked_refuse h
      exact ⟨h, fun hn => Bool.noConfusion (hn.symm.trans he)⟩
    · obtain ⟨h, he⟩ := checked_refuse h
      exact ⟨h, fun hn => Bool.noConfusion (hn.symm.trans he)⟩
    · rename_i hdoc
      rw [hdoc]
      exact checked_pattern h

lemma checked_text {rule : String × String} (h : (checkText flags d rule).Returns e) :
    Checked d e ∧ (e.failed = false → Passes flags rule.1 rule.2) := by
  unfold checkText at h
  dsimp only at h
  split at h
  · obtain ⟨h, he⟩ := checked_refuse h
    exact ⟨h, fun hn => Bool.noConfusion (hn.symm.trans he)⟩
  · exact checked_pattern h

lemma checked_state {state : String} (h : (checkState file flags d state).Returns e) : Checked d e ∧
    (e.failed = false → ∀ r ∈ Build.ruleTexts d state, Passes flags r.1 r.2) := by
  obtain ⟨d₁, h₁, h⟩ := h.bind
  obtain ⟨d₂, h₂, h⟩ := h.bind
  obtain ⟨hc₁, hroutines⟩ := checked_foldlM (fun _ _ _ _ h => checked_routine h) h₁
  obtain ⟨hc₂, htexts⟩ := checked_foldlM (fun _ _ _ _ h => checked_text h) h₂
  have hlast : Checked d₂ e := by
    dsimp only at h
    split at h
    · obtain ⟨d₃, h₃, h⟩ := h.bind
      refine (checked_refuse h₃).1.trans ?_
      split at h
      · exact checked_parameters h
      · obtain rfl := h.pure
        exact .refl _
    · obtain ⟨d₃, h₃, h⟩ := h.bind
      obtain rfl := h₃.pure
      split at h
      · exact checked_parameters h
      · obtain rfl := h.pure
        exact .refl _
  refine ⟨(hc₁.trans hc₂).trans hlast, fun he r hr => ?_⟩
  rcases mem_append.mp hr with hr | hr
  · obtain ⟨rule, hrule, rfl⟩ := mem_map.mp hr
    exact hroutines (hc₂.accepted (hlast.accepted he)) rule hrule
  · exact htexts (hlast.accepted he) r hr

lemma checked_source (h : (d.checkSource ds).Returns e) : Checked d e :=
  (checked_foldlM (fun _ _ _ _ h => ⟨(checked_refuse h).1, fun _ => trivial⟩) h).1

lemma of_check (h : (d.check ds flags).Returns ()) : d.failed = false ∧ ∀ state ∈ d.states.keys,
    ∀ r ∈ Build.ruleTexts d state, Passes flags r.1 r.2 := by
  obtain ⟨d₁, h₁, h⟩ := h.bind
  obtain ⟨d₂, h₂, h⟩ := h.bind
  obtain ⟨d₃, h₃, h⟩ := h.bind
  have hfirst := (checked_tokens h₁).trans (checked_literals h₂)
  have hstate : ∀ b e state, Checked d₂ b → (checkState ds.file flags b state).Returns e → Checked b e ∧
      (e.failed = false → ∀ r ∈ Build.ruleTexts d state, Passes flags r.1 r.2) := by
    intro b e state hb he
    have hsame : Build.ruleTexts b state = Build.ruleTexts d state := by
      rw [(hfirst.trans hb).same]
      rfl
    rw [← hsame]
    exact checked_state he
  obtain ⟨hstates, hall⟩ := checked_foldlM hstate h₃
  have hfinish : ∀ {b : Declared V σ}, (if b.failed then throw .refused else pure () : Building Unit).Returns () →
      b.failed = false := by
    intro b hb
    obtain ⟨-, hb⟩ | ⟨hn, -⟩ := hb.ite
    · exact hb.throw.elim
    · exact Bool.eq_false_iff.mpr hn
  have hd₃ : d₃.failed = false := by
    dsimp only at h
    split at h
    · obtain ⟨d₄, h₄, h⟩ := h.bind
      exact (checked_source h₄).accepted (hfinish h)
    · exact hfinish h
  refine ⟨(hfirst.trans hstates).accepted hd₃, fun state hs => hall hd₃ state ?_⟩
  rw [hfirst.same]
  exact hs

end Checks

end Declared

lemma Parts.reads {ds : Declarations (Handler V σ)} {opts : BuildOptions} {built : Built V σ} {d : Declared V σ}
    {all : List (String × List (Master V σ))} (hp : Parts ds opts built d all) : Declared.Reads ds d :=
  Declared.reads_of_read hp.read (Declared.of_check hp.check).1

end Scanner

end LispKit
