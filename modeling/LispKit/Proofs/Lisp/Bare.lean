import LispKit.Proofs.Lisp.Parallel
import LispKit.Proofs.Lisp.Reading

/-! Evaluation looks neither at the numbers of nodes nor at what has been printed before. -/

namespace LispKit.Lisp

open Store

def Frame.bare (f : Frame) : Frame :=
  { f with function := f.function.map Node.bare }

def Store.bare (s : Store) : Store :=
  { s with frames := s.frames.map Frame.bare }

def Store.after (s : Store) (out : String) : Store :=
  { s with out := out ++ s.out }

lemma Frame.bare_bare (f : Frame) : f.bare.bare = f.bare := by
  have hfunction : (f.function.map Node.bare).map Node.bare = f.function.map Node.bare := by
    cases f.function with
    | none => rfl
    | some c => exact congrArg some c.bare_bare
  simp only [bare, hfunction]

namespace Store

lemma bare_bare (s : Store) : s.bare.bare = s.bare := by
  have hframes : (s.frames.map Frame.bare).map Frame.bare = s.frames.map Frame.bare := by
    rw [Array.map_map]
    congr
    funext f
    exact f.bare_bare
  simp only [bare, hframes]

def seen (o : String) (s : Store) : Store :=
  s.bare.after o

variable {o : String} {s : Store} {i : Nat}

lemma frame?_bare (s : Store) (i : Nat) : s.bare.frame? i = (s.frame? i).map Frame.bare :=
  Array.getElem?_map

lemma frame?_seen (o : String) (s : Store) (i : Nat) : (s.seen o).frame? i = (s.frame? i).map Frame.bare :=
  frame?_bare s i

lemma current?_seen (o : String) (s : Store) (name : Value) :
    (s.seen o).current? name = (s.current? name).map fun p => (p.1, p.2.bare) := by
  unfold current?
  rw [show (s.seen o).calls = s.calls from rfl]
  cases s.calls with
  | nil => rfl
  | cons i is =>
    simp only [frame?_seen]
    cases s.frame? i with
    | none => rfl
    | some f =>
      change (if name.same f.name then some (i, f.bare) else none) = Option.map _ (if name.same f.name then some (i, f) else none)
      split
      · rfl
      · rfl

lemma callerBinding_seen (o : String) (s : Store) (f : Frame) (name : Value) :
    (s.seen o).callerBinding f.bare name = s.callerBinding f name := by
  change ((f.caller.bind (s.seen o).frame?).bind fun c => c.bindings.get? ⟨name⟩) =
    (f.caller.bind s.frame?).bind fun c => c.bindings.get? ⟨name⟩
  cases f.caller with
  | none => rfl
  | some i =>
    simp only [Option.bind_some, frame?_seen]
    cases s.frame? i with
    | none => rfl
    | some c => rfl

lemma seen_modifyFrame {F F' : Frame → Frame} (h : ∀ f, (F f).bare = F' f.bare) :
    (s.modifyFrame i F).seen o = (s.seen o).modifyFrame i F' := by
  have hframes : (s.frames.modify i F).map Frame.bare = (s.frames.map Frame.bare).modify i F' := by
    apply Array.ext_getElem?
    intro j
    simp only [Array.getElem?_map, Array.getElem?_modify]
    split
    · cases s.frames[j]? with
      | none => rfl
      | some f => exact congrArg some (h f)
    · rfl
  unfold seen bare modifyFrame
  simp only [hframes]
  rfl

@[simp] lemma size_seen (o : String) (s : Store) : (s.seen o).frames.size = s.frames.size :=
  Array.size_map

lemma seen_push (o : String) (s : Store) (f : Frame) :
    { s with frames := s.frames.push f }.seen o = { s.seen o with frames := (s.seen o).frames.push f.bare } := by
  simp only [seen, bare, after, Array.map_push]

lemma seen_print (o : String) (s : Store) (line : String) : (s.print line).seen o = (s.seen o).print line := by
  simp only [seen, bare, after, print, String.append_assoc]

lemma seen_empty (s : Store) : s.seen "" = s.bare := by
  simp only [seen, bare, after, String.empty_append]

end Store

lemma Entered.seen {s u : Store} {name : Value} {i : Nat} (h : Entered s name i u) (o : String) :
    Entered (s.seen o) name i (u.seen o) := by
  cases h with
  | @copy top f hc =>
    have he : Entered (s.seen o) name _ _ := .copy (f := f.bare) (by rw [current?_seen, hc]; rfl)
    have hpush := seen_push o s { f with parameters := [], arguments := [], caller := some top }
    rw [size_seen] at he
    exact (congrArg (Entered (s.seen o) name s.frames.size) (congrArg (·.pushCall s.frames.size) hpush)).mpr he
  | own hc hf =>
    have he : Entered (s.seen o) name i _ := .own (by rw [current?_seen, hc]; rfl) hf
    have hmodify : (s.modifyFrame i fun f => { f with parameters := [], arguments := [], caller := s.calls.head? }).seen o =
        (s.seen o).modifyFrame i fun f => { f with parameters := [], arguments := [], caller := s.calls.head? } :=
      seen_modifyFrame fun _ => rfl
    exact (congrArg (Entered (s.seen o) name i) (congrArg (·.pushCall i) hmodify)).mpr he

def Likeness.seen (o : String) : Likeness where
  Same n m := n.bare = m
  Like s t := t = s.seen o
  kind h := h ▸ Node.kind_bare _
  value h := h ▸ Node.value_bare _
  child {n m} h i := by
    rw [← h, Node.children_bare, List.getElem?_map]
    exact optionRel_map (f := Node.bare) (fun _ => rfl) _
  scopes h := h ▸ rfl
  calls h := h ▸ Iff.rfl
  globals h := h ▸ rfl
  frame {s t i j} h hi hj := by
    subst h
    obtain rfl : i = j := Option.some.inj (hi.symm.trans hj)
    rw [frame?_seen]
    refine optionRel_map (fun f => ⟨⟨rfl, rfl, rfl, ?_⟩, callerBinding_seen o s f⟩) _
    exact optionRel_map (f := Node.bare) (fun _ => rfl) f.function
  push _ h := h ▸ rfl
  pop {s t _ l l'} h hl hl' := by
    subst h
    rw [List.tail_eq_of_cons_eq (hl'.symm.trans hl)]
    rfl
  print line h := h ▸ (seen_print o _ line).symm
  global _ _ h := h ▸ rfl
  define {s t c d} name hc h := by
    subst hc h
    have hpush := seen_push o s { name := name, function := some c }
    rw [size_seen]
    exact congrArg (fun t : Store => { t with functions := s.functions.insert ⟨name⟩ s.frames.size }) hpush.symm
  update p a b h hi hj := by
    subst h
    rw [Option.some.inj (hi.symm.trans hj)]
    exact (seen_modifyFrame (F := (·.update p a b)) fun _ => rfl).symm
  scope _ h := h ▸ rfl
  opened {s t c d} hc h := by
    subst hc h
    have hpush := seen_push o s { name := anonymousName, function := some c }
    rw [size_seen]
    exact congrArg (·.pushCall s.frames.size) hpush.symm
  entered {s t name i u} h he := by
    subst h
    exact ⟨i, u.seen o, he.seen o, rfl⟩
  missing h hc hf := by
    subst h
    exact ⟨by rw [current?_seen, hc]; rfl, hf⟩
  leave _ h hi hj := by
    subst h
    rw [List.tail_eq_of_cons_eq (hj.symm.trans hi)]
    rfl

lemma Likeness.remembers_seen (o : String) : (seen o).Remembers :=
  ⟨fun h => h ▸ rfl, fun _ _ h => h ▸ rfl⟩

theorem evaluate_seen (memoize : Bool) (o : String) (d : Nat) (n : Node) (s : Store) :
    evaluate memoize d n.bare (s.seen o) = ((evaluate memoize d n s).1, (evaluate memoize d n s).2.seen o) := by
  obtain ⟨_, h, rfl, _⟩ := (Likeness.seen o).evaluate (Likeness.remembers_seen o) memoize
    (P := fun _ => True) (fun _ h => h) (fun _ _ hs => by rw [hs]; rfl) d (n := n) (s := s) trivial rfl rfl
  exact h

variable {r : Except Fault Value} {memoize : Bool} {n : Node}

lemma Settles.seen {s t : Store} (h : Settles memoize n s r t)
    (o : String) : Settles memoize n.bare (s.seen o) r (t.seen o) := by
  obtain ⟨hr, d, hd⟩ := h
  refine ⟨hr, d, ?_⟩
  rw [evaluate_seen, hd]

lemma Settles.of_seen {o : String} {s t : Store}
    (h : Settles memoize n.bare (s.seen o) r t) : ∃ u, Settles memoize n s r u ∧ t = u.seen o := by
  obtain ⟨hr, d, hd⟩ := h
  rw [evaluate_seen, Prod.mk.injEq] at hd
  exact ⟨_, ⟨hr, d, Prod.ext hd.1 rfl⟩, hd.2.symm⟩

end LispKit.Lisp
