import ScriptLang.Proofs.FlowBlocks

/-! One loop over the statements of a body cuts it into blocks. It remembers where the block that is
still open starts, closes it before a label and behind a statement after which control may go
elsewhere, and closes what is left at the end. At every statement the closed blocks are those of the
first runs of the body, and the open one is the front of the next run. -/

namespace ScriptLang

open FlowGraph

/-- The run goes on no further: it ends in a statement after which control may go elsewhere, a label
is next, or nothing. -/
def Cuts (run rest : List Stmt) : Prop :=
  rest = [] ∨ (∃ s, run.getLast? = some s ∧ s.endsRun = true) ∨
    ∃ s, rest.head? = some s ∧ s.isLabel = true

/-- The first run starts with the first statement. -/
theorem Body.head?_runs (body : Body) : body.runs.head?.bind List.head? = body.head? := by
  have whole := body.flatten_runs
  cases runs : body.runs with
  | nil =>
    rw [← whole, runs]
    rfl
  | cons run others =>
    have isRun := body.runs_isRun run (runs ▸ List.mem_cons_self)
    obtain ⟨s, run, rfl⟩ := List.exists_cons_of_ne_nil isRun.notEmpty
    rw [← whole, runs]
    rfl

/-- A statement is a run if it ends one, or if a label is next, or nothing. -/
theorem addToRuns_of_cuts {s : Stmt} {rest : Body} (cuts : Cuts [s] rest) :
    addToRuns s rest.runs = [s] :: rest.runs := by
  have first := rest.head?_runs
  cases runs : rest.runs with
  | nil => rfl
  | cons run runs' =>
    rw [addToRuns]
    refine if_pos ?_
    rw [Bool.or_eq_true]
    rcases cuts with rfl | ⟨t, last, ends⟩ | ⟨t, next, isLabel⟩
    · simp [Body.runs] at runs
    · obtain rfl := Option.some.inj last
      exact .inl ends
    · rw [runs, next, List.head?_cons, Option.bind_some] at first
      rw [first, Option.map_some, Option.getD_some]
      exact .inr isLabel

/-- A run that goes on no further is the first one of the body that starts with it. -/
theorem runs_append {run rest : List Stmt} (isRun : IsRun run) (cuts : Cuts run rest) :
    Body.runs (run ++ rest) = run :: Body.runs rest := by
  induction run with
  | nil => exact absurd rfl isRun.notEmpty
  | cons s run ih =>
    have unfolded : Body.runs (s :: run ++ rest) = addToRuns s (Body.runs (run ++ rest)) := rfl
    cases run with
    | nil => exact addToRuns_of_cuts cuts
    | cons t more =>
      have inner : IsRun (t :: more) := by
        refine ⟨by simp, fun u member => isRun.ends u ?_, fun u member => isRun.labels u ?_⟩
        · rw [List.dropLast_cons_of_ne_nil (by simp)]
          exact List.mem_cons_of_mem s member
        · exact List.mem_cons_of_mem t member
      have goesOn : s.endsRun = false := isRun.ends s (by simp)
      have noLabel : t.isLabel = false := isRun.labels t (by simp)
      rw [unfolded, ih inner (by simpa [Cuts] using cuts), addToRuns]
      simp [goesOn, noLabel]

theorem bodyBlocks_concat (id offset : Nat) (runs : List (List Stmt)) (run : List Stmt) :
    bodyBlocks id offset (runs ++ [run]) =
      bodyBlocks id offset runs ++
        [⟨id + runs.length, .body, run, offset + runs.flatten.length⟩] := by
  induction runs generalizing id offset with
  | nil => rfl
  | cons first runs ih =>
    rw [List.cons_append, bodyBlocks, ih, bodyBlocks]
    simp only [List.cons_append, List.length_cons, List.flatten_cons, List.length_append]
    congr 4 <;> omega

theorem length_bodyBlocks (id offset : Nat) (runs : List (List Stmt)) :
    (bodyBlocks id offset runs).length = runs.length := by
  induction runs generalizing id offset with
  | nil => rfl
  | cons run runs ih => rw [bodyBlocks, List.length_cons, ih, List.length_cons]

/-- A block that stores the place behind its last statement, and the places of the edges into it and
out of it in the list of edges. -/
structure LinkedBlock extends Block where
  last : Nat
  incoming : List Nat
  outgoing : List Nat

structure LinkedGraph where
  blocks : List LinkedBlock
  edges : List Edge

namespace FlowGraph

def link (g : FlowGraph) (b : Block) : LinkedBlock :=
  ⟨b, b.stop, g.incoming b.id, g.outgoing b.id⟩

def linked (g : FlowGraph) : LinkedGraph where
  blocks := g.blocks.map g.link
  edges := g.edges

/-- The blocks of runs, with the one for the start and the one for the end, not yet connected. -/
def ofRuns (runs : List (List Stmt)) : FlowGraph where
  blocks := ⟨startId, .start, [], 0⟩ :: ⟨finishId, .finish, [], 0⟩ :: bodyBlocks 2 0 runs
  edges := []

end FlowGraph

/-- The statements of a body from one place up to another, if these are places of the body in this
order. -/
def Body.slice? (body : Body) (first last : Nat) : Option (List Stmt) :=
  if first ≤ last ∧ last ≤ body.length then some ((body.take last).drop first) else none

theorem Body.slice?_of_split {body : Body} {before run after : List Stmt}
    (split : body = before ++ (run ++ after)) :
    body.slice? before.length (before.length + run.length) = some run := by
  have inside : before.length ≤ before.length + run.length ∧
      before.length + run.length ≤ body.length := by
    rw [split, List.length_append, List.length_append]
    omega
  rw [slice?, if_pos inside, split, ← List.append_assoc, ← List.length_append, List.take_left,
    List.drop_left]

namespace LinkedGraph

def ends : LinkedGraph where
  blocks := [⟨⟨startId, .start, [], 0⟩, 0, [], []⟩, ⟨⟨finishId, .finish, [], 0⟩, 0, [], []⟩]
  edges := []

/-- The graph with one more block, for the statements of a body from one place up to another. There
is no such graph if these are no places of the body in this order. -/
def push? (g : LinkedGraph) (body : Body) (first last : Nat) : Option LinkedGraph :=
  (body.slice? first last).map fun statements =>
    { g with blocks := g.blocks ++ [⟨⟨g.blocks.length, .body, statements, first⟩, last, [], []⟩] }

theorem push?_linked {body : Body} {runs : List (List Stmt)} {run after : List Stmt}
    (split : body = runs.flatten ++ (run ++ after)) :
    (ofRuns runs).linked.push? body runs.flatten.length (runs.flatten.length + run.length) =
      some (ofRuns (runs ++ [run])).linked := by
  have number : (ofRuns runs).linked.blocks.length = 2 + runs.length := by
    simp only [linked, ofRuns, List.length_map, List.length_cons, length_bodyBlocks]
    omega
  rw [push?, Body.slice?_of_split split, Option.map_some, number]
  simp [linked, link, ofRuns, bodyBlocks_concat, Block.stop, FlowGraph.incoming,
    FlowGraph.outgoing]

end LinkedGraph

/-- The graph so far, and the place at which the open block starts. -/
structure Cutting where
  graph : LinkedGraph
  start : Nat

namespace Cutting

def close? (c : Cutting) (body : Body) (place : Nat) : Option Cutting :=
  (c.graph.push? body c.start place).map fun g => ⟨g, place⟩

/-- The round for the statement at a place. A label that does not stand at the front of the open
block closes it, and so does a statement after which control may go elsewhere, behind itself. -/
def round? (c : Cutting) (body : Body) (place : Nat) (s : Stmt) : Option Cutting :=
  (if s.isLabel = true ∧ c.start < place then c.close? body place else some c).bind fun c =>
    if s.endsRun then c.close? body (place + 1) else some c

def rounds? (c : Cutting) (body : Body) (place : Nat) : List Stmt → Option Cutting
  | [] => some c
  | s :: rest => (c.round? body place s).bind fun c => c.rounds? body (place + 1) rest

/-- The blocks of the first runs are closed, and the loop has not closed what is ahead. -/
structure Stage (c : Cutting) (body : Body) (done : List (List Stmt)) (ahead : List Stmt) :
    Prop where
  graph : c.graph = (ofRuns done).linked
  start : c.start = done.flatten.length
  split : body = done.flatten ++ ahead
  runs : body.runs = done ++ Body.runs ahead

structure IsOpen (opened : List Stmt) : Prop where
  ends : ∀ s ∈ opened, s.endsRun = false
  labels : ∀ s ∈ opened.tail, s.isLabel = false

theorem IsOpen.nil : IsOpen [] := ⟨List.forall_mem_nil _, List.forall_mem_nil _⟩

theorem IsOpen.labels_concat {opened : List Stmt} {s : Stmt} (isOpen : IsOpen opened)
    (joins : opened = [] ∨ s.isLabel = false) : ∀ t ∈ (opened ++ [s]).tail, t.isLabel = false := by
  intro t member
  cases opened with
  | nil => cases member
  | cons first opened =>
    rcases List.mem_append.1 member with old | new
    · exact isOpen.labels t old
    · rw [List.mem_singleton.1 new]
      exact joins.resolve_left (List.cons_ne_nil first opened)

theorem IsOpen.concat {opened : List Stmt} {s : Stmt} (isOpen : IsOpen opened)
    (goesOn : s.endsRun = false) (joins : opened = [] ∨ s.isLabel = false) :
    IsOpen (opened ++ [s]) := by
  refine ⟨fun t member => ?_, isOpen.labels_concat joins⟩
  rcases List.mem_append.1 member with old | new
  · exact isOpen.ends t old
  · rwa [List.mem_singleton.1 new]

theorem IsOpen.isRun {opened : List Stmt} (isOpen : IsOpen opened) (notEmpty : opened ≠ []) :
    IsRun opened :=
  ⟨notEmpty, fun s member => isOpen.ends s (List.dropLast_subset opened member), isOpen.labels⟩

variable {c : Cutting} {body : Body} {done : List (List Stmt)} {run opened rest : List Stmt}

theorem Stage.push (stage : c.Stage body done (run ++ rest)) :
    c.graph.push? body c.start (c.start + run.length) = some (ofRuns (done ++ [run])).linked := by
  rw [stage.graph, stage.start]
  exact LinkedGraph.push?_linked stage.split

theorem Stage.close (stage : c.Stage body done (run ++ rest)) (isRun : IsRun run)
    (cuts : Cuts run rest) :
    ∃ c', c.close? body (c.start + run.length) = some c' ∧
      c'.start = c.start + run.length ∧ c'.Stage body (done ++ [run]) rest := by
  refine ⟨_, by rw [close?, stage.push, Option.map_some], rfl, rfl, ?_, ?_, ?_⟩
  · simp [stage.start]
  · simp [stage.split]
  · rw [stage.runs, runs_append isRun cuts]
    simp

theorem endsRun_of_isLabel {s : Stmt} (isLabel : s.isLabel = true) : s.endsRun = false := by
  cases s <;> first | contradiction | rfl

/-- In a round for a label the open block is closed, if there is one, and the label starts the
next. -/
theorem Stage.round_label {s : Stmt} (stage : c.Stage body done (opened ++ s :: rest))
    (isOpen : IsOpen opened) (isLabel : s.isLabel = true) :
    ∃ c' done', c.round? body (c.start + opened.length) s = some c' ∧
      c'.Stage body done' ([s] ++ rest) ∧ c'.start = c.start + opened.length := by
  have goesOn := endsRun_of_isLabel isLabel
  by_cases empty : opened = []
  · subst empty
    refine ⟨c, done, ?_, stage, rfl⟩
    simp [round?, goesOn]
  · obtain ⟨c', closed, start, stage'⟩ :=
      stage.close (isOpen.isRun empty) (.inr (.inr ⟨s, rfl, isLabel⟩))
    have notEmpty := List.length_pos_iff.2 empty
    have isBehind : s.isLabel = true ∧ c.start < c.start + opened.length := ⟨isLabel, by omega⟩
    refine ⟨c', _, ?_, stage', start⟩
    rw [round?, if_pos isBehind, closed, Option.bind_some, goesOn]
    rfl

/-- A statement after which control may go elsewhere is the last one of the open block. -/
theorem Stage.round_end {s : Stmt} (stage : c.Stage body done (opened ++ s :: rest))
    (isOpen : IsOpen opened) (noLabel : s.isLabel = false) (ends : s.endsRun = true) :
    ∃ c' done', c.round? body (c.start + opened.length) s = some c' ∧
      c'.Stage body done' rest ∧ c'.start = c.start + opened.length + 1 := by
  have isRun : IsRun (opened ++ [s]) := by
    refine ⟨by simp, fun t member => ?_, isOpen.labels_concat (.inr noLabel)⟩
    exact isOpen.ends t (by simpa using member)
  have split : opened ++ s :: rest = (opened ++ [s]) ++ rest := by simp
  rw [split] at stage
  obtain ⟨c', closed, start, stage'⟩ :=
    stage.close isRun (.inr (.inl ⟨s, List.getLast?_concat, ends⟩))
  rw [List.length_append, List.length_singleton, ← Nat.add_assoc] at closed start
  refine ⟨c', _, ?_, stage', start⟩
  simp [round?, noLabel, ends, closed]

/-- After each round the loop is past the statement, and what is not closed can stand in an open
block. -/
theorem Stage.round {s : Stmt} (stage : c.Stage body done (opened ++ s :: rest))
    (isOpen : IsOpen opened) :
    ∃ c' done' opened', c.round? body (c.start + opened.length) s = some c' ∧
      c'.Stage body done' (opened' ++ rest) ∧ IsOpen opened' ∧
      c'.start + opened'.length = c.start + opened.length + 1 := by
  cases isLabel : s.isLabel with
  | true =>
    obtain ⟨c', done', answer, stage', start⟩ := stage.round_label isOpen isLabel
    have alone := IsOpen.nil.concat (endsRun_of_isLabel isLabel) (.inl rfl)
    exact ⟨c', done', [s], answer, stage', alone, congrArg (· + 1) start⟩
  | false =>
    cases ends : s.endsRun with
    | true =>
      obtain ⟨c', done', answer, stage', start⟩ := stage.round_end isOpen isLabel ends
      exact ⟨c', done', [], answer, stage', .nil, start⟩
    | false =>
      refine ⟨c, done, opened ++ [s], by simp [round?, isLabel, ends], by simpa using stage,
        isOpen.concat ends (.inr isLabel), ?_⟩
      rw [List.length_append, List.length_singleton, ← Nat.add_assoc]

theorem Stage.rounds (stage : c.Stage body done (opened ++ rest)) (isOpen : IsOpen opened) :
    ∃ c' done' opened', c.rounds? body (c.start + opened.length) rest = some c' ∧
      c'.Stage body done' opened' ∧ IsOpen opened' := by
  induction rest generalizing c done opened with
  | nil => exact ⟨c, done, opened, rfl, by simpa using stage, isOpen⟩
  | cons s rest ih =>
    obtain ⟨c', done', opened', answer, stage', isOpen', place⟩ := stage.round isOpen
    obtain ⟨c'', done'', opened'', answers, final⟩ := ih stage' isOpen'
    refine ⟨c'', done'', opened'', ?_, final⟩
    rw [rounds?, answer, Option.bind_some, ← place, answers]

end Cutting

def Body.cut? (body : Body) : Option LinkedGraph :=
  ((Cutting.mk .ends 0).rounds? body 0 body).bind fun c =>
    if c.start < body.length then c.graph.push? body c.start body.length else some c.graph

/-- The loop never leaves the body, and cuts it into its runs. -/
theorem Body.cut?_eq (body : Body) : body.cut? = some (ofRuns body.runs).linked := by
  have stage : (Cutting.mk .ends 0).Stage body [] ([] ++ body) := ⟨rfl, rfl, rfl, rfl⟩
  obtain ⟨c, done, opened, answer, final, isOpen⟩ := stage.rounds .nil
  have closed : (Cutting.mk .ends 0).rounds? body 0 body = some c := answer
  have length : body.length = c.start + opened.length := by
    rw [final.start, ← List.length_append, ← final.split]
  have runs := final.runs
  rw [cut?, closed, Option.bind_some]
  by_cases empty : opened = []
  · subst empty
    rw [if_neg (by simp [length]), final.graph, runs]
    simp [Body.runs]
  · have notEmpty := List.length_pos_iff.2 empty
    have last := runs_append (isOpen.isRun empty) (.inl rfl : Cuts opened [])
    rw [List.append_nil] at last
    have pushed := (show c.Stage body done (opened ++ []) by simpa using final).push
    rw [if_pos (by omega), length, pushed, runs, last]
    rfl

end ScriptLang
