import LispKit.Proofs.Lisp.Exhibit

/-! Walks over trees: the nodes of a tree with their depths, every node before its children, and the lines that show the
levels of a tree. -/

namespace LispKit.Lisp

open List

namespace Node

mutual

def walk (d : Nat) : Node → List (Nat × Node)
  | mk kind value id children => (d, mk kind value id children) :: walkAll (d + 1) children

def walkAll (d : Nat) : List Node → List (Nat × Node)
  | [] => []
  | n :: ns => walk d n ++ walkAll d ns

end

mutual

def height : Node → Nat
  | mk _ _ _ children => stories children

def stories : List Node → Nat
  | [] => 0
  | n :: ns => max (height n + 1) (stories ns)

end

def nodes (n : Node) : List Node :=
  (n.walk 0).map Prod.snd

def nodesAt (n : Node) (d : Nat) : List Node :=
  ((n.walk 0).filter fun p => p.1 = d).map Prod.snd

section Depth

variable (d : Nat) (n : Node) (ns level : List Node)

lemma walk_eq : walk d n = (d, n) :: walkAll (d + 1) n.children := by
  cases n
  rw [walk, children]

lemma walkAll_append : walkAll d (ns ++ level) = walkAll d ns ++ walkAll d level := by
  induction ns with
  | nil => rfl
  | cons m ns ih => rw [cons_append, walkAll, walkAll, ih, append_assoc]

mutual

lemma le_of_mem_walk (d : Nat) : ∀ (n : Node), ∀ p ∈ walk d n, d ≤ p.1
  | mk _ _ _ cs => by
    rw [walk]
    exact forall_mem_cons.mpr ⟨Nat.le_refl d, fun p hp => Nat.le_of_succ_le (le_of_mem_walkAll (d + 1) cs p hp)⟩

lemma le_of_mem_walkAll (d : Nat) : ∀ (ns : List Node), ∀ p ∈ walkAll d ns, d ≤ p.1
  | [] => forall_mem_nil _
  | n :: ns => by
    rw [walkAll]
    exact forall_mem_append.mpr ⟨le_of_mem_walk d n, le_of_mem_walkAll d ns⟩

end

def rowAt (d k : Nat) (ns : List Node) : List Node :=
  ((walkAll d ns).filter fun p => p.1 = k).map Prod.snd

lemma rowAt_cons (k : Nat) : rowAt d k (n :: ns) =
    (if d = k then [n] else []) ++ rowAt (d + 1) k n.children ++ rowAt d k ns := by
  simp only [rowAt, walkAll, walk_eq, filter_append, filter_cons, map_append]
  split <;> simp_all

lemma rowAt_of_lt {d k : Nat} (h : k < d) : rowAt d k ns = [] := by
  simp only [rowAt, map_eq_nil_iff, filter_eq_nil_iff]
  intro p hp
  have := le_of_mem_walkAll d ns p hp
  simp
  omega

lemma rowAt_self : rowAt d d level = level := by
  induction level with
  | nil => rfl
  | cons n level ih => rw [rowAt_cons, ih, if_pos rfl, rowAt_of_lt _ d.lt_succ_self]; rfl

lemma rowAt_below {d k : Nat} (h : d < k) : rowAt d k level = rowAt (d + 1) k (level.flatMap children) := by
  induction level with
  | nil => rfl
  | cons n level ih =>
    rw [rowAt_cons, ih, if_neg (Nat.ne_of_lt h), flatMap_cons, rowAt, rowAt, rowAt, walkAll_append, filter_append,
      map_append]
    rfl

end Depth

section Levels

lemma stories_append (ms ns : List Node) : stories (ms ++ ns) = max (stories ms) (stories ns) := by
  induction ms with
  | nil => rw [nil_append, stories, Nat.zero_max]
  | cons m ms ih => rw [cons_append, stories, stories, ih, Nat.max_assoc]

lemma height_eq (n : Node) : n.height = stories n.children := by
  cases n
  rw [height, children]

lemma stories_cons (n : Node) (level : List Node) :
    stories (n :: level) = stories ((n :: level).flatMap children) + 1 := by
  induction level generalizing n with
  | nil => simp [stories, height_eq]
  | cons m level ih =>
    rw [stories, ih, height_eq, Nat.add_max_add_right, ← stories_append, ← flatMap_cons]

lemma levelsFrom_eq (d : Nat) (level : List Node) :
    levelsFrom level = (List.range (stories level)).map fun k => rowAt d (d + k) level := by
  induction level using levels_induction generalizing d with
  | nil => rw [levelsFrom]; rfl
  | cons n queue ih =>
    rw [levelsFrom_cons, ih (d + 1), stories_cons, range_succ_eq_map, map_cons, List.map_map]
    refine cons_eq_cons.mpr ⟨(rowAt_self d _).symm, map_congr_left fun k _ => ?_⟩
    rw [Nat.add_right_comm]
    exact (rowAt_below _ (by omega)).symm

lemma levels_eq (n : Node) : n.levels = (List.range (n.height + 1)).map n.nodesAt := by
  rw [levels, levelsFrom_eq 0, stories, stories, Nat.max_zero]
  refine map_congr_left fun k _ => ?_
  rw [rowAt, walkAll, walkAll, append_nil, Nat.zero_add, nodesAt]

lemma walkAll_perm (d : Nat) (level : List Node) : ((walkAll d level).map Prod.snd).Perm
    (level ++ (walkAll (d + 1) (level.flatMap children)).map Prod.snd) := by
  induction level with
  | nil => rfl
  | cons n level ih =>
    rw [walkAll, walk_eq, flatMap_cons, walkAll_append, map_append, map_append, map_cons,
      cons_append, cons_append]
    exact .cons n ((ih.append_left _).trans (perm_append_comm_assoc _ _ _))

lemma flatten_levelsFrom (d : Nat) (level : List Node) :
    (levelsFrom level).flatten.Perm ((walkAll d level).map Prod.snd) := by
  induction level using levels_induction generalizing d with
  | nil => rw [levelsFrom]; rfl
  | cons n queue ih =>
    rw [levelsFrom_cons, flatten_cons]
    exact ((ih (d + 1)).append_left _).trans (walkAll_perm d _).symm

lemma flatten_levels (n : Node) : n.levels.flatten.Perm n.nodes := by
  have h := flatten_levelsFrom 0 [n]
  rwa [walkAll, walkAll, append_nil] at h

end Levels

end Node

section Lines

variable {shown : Node → String} {level : List Node}

def lineOf (shown : Node → String) (level : List Node) : String :=
  String.join (level.map fun m => m.kind.name ++ ":" ++ shown m ++ " ")

namespace Running

variable {α : Type} {f : α → Running Unit} {xs : List α} {run : Run}

lemma run_nodes (h : ∀ m ∈ level, m.value.display = .ok (shown m)) (run : Run) :
    (level.forM printNode).run.run run = (.ok (), { run with desk := run.desk.write (lineOf shown level) }) := by
  induction level generalizing run with
  | nil =>
    have hdesk : run.desk.write (lineOf shown []) = run.desk := by simp [lineOf, Desk.write]
    rw [hdesk]
    rfl
  | cons m level ih =>
    obtain ⟨hm, hlevel⟩ := forall_mem_cons.mp h
    refine (run_bind (printNode m) _ run).trans ?_
    rw [printNode, hm]
    refine (ih hlevel _).trans ?_
    simp [lineOf, Desk.write, String.append_assoc]

lemma run_levels {levels : List (List Node)} (h : ∀ level ∈ levels, ∀ m ∈ level, m.value.display = .ok (shown m))
    (run : Run) : (levels.forM fun level => level.forM printNode >>= fun _ => print "").run.run run =
      (.ok (), { run with desk := (levels.map (lineOf shown)).foldl Desk.print run.desk }) := by
  induction levels generalizing run with
  | nil => rfl
  | cons level levels ih =>
    obtain ⟨hlevel, hlevels⟩ := forall_mem_cons.mp h
    refine (run_bind (level.forM printNode >>= fun _ => print "") _ run).trans ?_
    rw [run_bind, run_nodes hlevel]
    refine (ih hlevels _).trans ?_
    simp [Desk.print, Desk.write]

lemma of_run_bind {β : Type} {x : Running α} {y : α → Running β} {b : β} (h : ((x >>= y).run.run run).1 = .ok b) :
    ∃ a t, x.run.run run = (.ok a, t) ∧ ((y a).run.run t).1 = .ok b := by
  rw [run_bind] at h
  rcases hx : x.run.run run with ⟨e | a, t⟩
  · rw [hx] at h
    cases h
  · rw [hx] at h
    exact ⟨a, t, rfl, h⟩

lemma of_run_forM (h : ((xs.forM f).run.run run).1 = .ok ()) : ∀ a ∈ xs, ∃ run, ((f a).run.run run).1 = .ok () := by
  induction xs generalizing run with
  | nil => exact forall_mem_nil _
  | cons a xs ih =>
    obtain ⟨_, t, ha, hrest⟩ := of_run_bind (x := f a) h
    exact forall_mem_cons.mpr ⟨⟨run, congrArg Prod.fst ha⟩, ih hrest⟩

lemma display_of_printNode {m : Node} (h : ((printNode m).run.run run).1 = .ok ()) :
    ∃ text, m.value.display = .ok text := by
  cases hm : m.value.display with
  | ok text => exact ⟨text, rfl⟩
  | error e =>
    rw [printNode, hm] at h
    cases h

lemma run_printLevels_eq (n : Node) (run : Run) : (printLevels (some n)).run.run run =
    (printNodes n >>= fun _ => print separator).run.run { run with desk := run.desk.print "AST BFS:" } :=
  rfl

lemma run_printLevels (n : Node) (h : ∀ m ∈ n.nodes, m.value.display = .ok (shown m)) (run : Run) :
    (printLevels (some n)).run.run run = (.ok (), { run with desk :=
      (["AST BFS:"] ++ n.levels.map (lineOf shown) ++ [separator]).foldl Desk.print run.desk }) := by
  have hlines : ∀ level ∈ n.levels, ∀ m ∈ level, m.value.display = .ok (shown m) := fun level hlevel m hm =>
    h m (n.flatten_levels.mem_iff.mp (mem_flatten_of_mem hlevel hm))
  rw [run_printLevels_eq, run_bind, printNodes, run_levels hlines, append_assoc, foldl_append, foldl_append]
  rfl

lemma display_of_printLevels {n : Node} (h : ((printLevels (some n)).run.run run).1 = .ok ()) :
    ∀ m ∈ n.nodes, ∃ text, m.value.display = .ok text := by
  intro m hm
  obtain ⟨level, hlevel, hm⟩ := mem_flatten.mp (n.flatten_levels.mem_iff.mpr hm)
  rw [run_printLevels_eq] at h
  obtain ⟨_, t, hlines, -⟩ := of_run_bind h
  obtain ⟨_, hline⟩ := of_run_forM (congrArg Prod.fst hlines) level hlevel
  obtain ⟨_, t, hnodes, -⟩ := of_run_bind hline
  obtain ⟨_, hnode⟩ := of_run_forM (congrArg Prod.fst hnodes) m hm
  exact display_of_printNode hnode

end Running

end Lines

lemma lineOf_onOneLine {shown : Node → String} {level : List Node}
    (h : ∀ m ∈ level, '\n' ∉ m.kind.name.toList ∧ '\n' ∉ (shown m).toList) : '\n' ∉ (lineOf shown level).toList := by
  simpa [lineOf] using h

/-- Printing the levels of a tree ends normally iff all its values can be written, with a text for every depth, and no node
is left out or shown twice. The text is one line if no kind and no value breaks it. -/
theorem printLevels_shows (n : Node) :
    n.levels = (List.range (n.height + 1)).map n.nodesAt ∧ n.levels.flatten.Perm n.nodes ∧
    (∀ run, ((Running.printLevels (some n)).run.run run).1 = .ok () ↔ ∀ m ∈ n.nodes, ∃ text, m.value.display = .ok text) ∧
    ∀ shown, (∀ m ∈ n.nodes, m.value.display = .ok (shown m)) →
      (∀ run, (Running.printLevels (some n)).run.run run = (.ok (), { run with
        desk := (["AST BFS:"] ++ (List.range (n.height + 1)).map (fun d => lineOf shown (n.nodesAt d)) ++
          [Running.separator]).foldl Desk.print run.desk })) ∧
      ((∀ m ∈ n.nodes, '\n' ∉ m.kind.name.toList ∧ '\n' ∉ (shown m).toList) →
        ∀ d, '\n' ∉ (lineOf shown (n.nodesAt d)).toList) := by
  refine ⟨n.levels_eq, n.flatten_levels, fun run => ⟨Running.display_of_printLevels, fun h => ?_⟩,
    fun shown h => ⟨fun run => ?_, fun hlines d => lineOf_onOneLine fun m hm => hlines m ?_⟩⟩
  · choose! shown hshown using h
    rw [Running.run_printLevels n hshown]
  · rw [Running.run_printLevels n h, n.levels_eq, List.map_map]
    rfl
  · obtain ⟨p, hp, rfl⟩ := mem_map.mp hm
    exact mem_map_of_mem (mem_of_mem_filter hp)

def sumTree : Node :=
  .mk (.binary .plus) .nothing 4 [.mk .number (.int 1) 0 [],
    .mk (.binary .times) .nothing 3 [.mk .number (.int 2) 1 [], .mk .number (.int 3) 2 []]]

theorem printLevels_shows_sumTree : (∀ m ∈ sumTree.nodes, m.value.display = .ok m.value.written) ∧
    ∀ run, (Running.printLevels (some sumTree)).run.run run = (.ok (), { run with
      desk := ["AST BFS:", "PLUS:None ", "NUMBER:1 MUL:None ", "NUMBER:2 NUMBER:3 ", Running.separator].foldl
        Desk.print run.desk }) := by
  have hshown : ∀ m ∈ sumTree.nodes, m.value.display = .ok m.value.written := by
    decide +kernel
  refine ⟨hshown, fun run => ?_⟩
  have hlines : ["AST BFS:"] ++ (List.range (sumTree.height + 1)).map (fun d =>
      lineOf (fun m => m.value.written) (sumTree.nodesAt d)) ++ [Running.separator] =
      ["AST BFS:", "PLUS:None ", "NUMBER:1 MUL:None ", "NUMBER:2 NUMBER:3 ", Running.separator] := by
    decide +kernel
  rw [((printLevels_shows sumTree).2.2.2 _ hshown).1 run, hlines]

/-- A value that breaks its line, and one that is too long to be written. -/
theorem level_not_one_line :
    (((Running.printNodes (.mk (.other "A") (.text "x\ny") 0 [])).run.run {}).2.desk.out = "A:x\ny \n") ∧
    (((Running.printNodes (.mk .number (.int (10 ^ 4300)) 0 [])).run.run {}).1 = .error (.fault .longNumber)) := by
  decide +kernel

end LispKit.Lisp
