import Mathlib.Logic.Relation
import ScriptLang.FlowGraph

/-! The runs of a body are its blocks, each at its place. The search for reachable blocks
finds a set that contains the start and that no edge leaves, and nothing but what edges
lead to from there. -/

namespace ScriptLang

/-- Control enters the run only at its front and leaves it only at its end. -/
structure IsRun (run : List Stmt) : Prop where
  notEmpty : run ≠ []
  ends : ∀ s ∈ run.dropLast, s.endsRun = false
  labels : ∀ s ∈ run.tail, s.isLabel = false

theorem IsRun.single (s : Stmt) : IsRun [s] := ⟨by simp, by simp, by simp⟩

theorem addToRuns_isRun {s : Stmt} {runs : List (List Stmt)} (given : ∀ run ∈ runs, IsRun run) :
    ∀ run ∈ addToRuns s runs, IsRun run := by
  cases runs with
  | nil => simpa [addToRuns] using IsRun.single s
  | cons run runs =>
    obtain ⟨first, rest⟩ := List.forall_mem_cons.1 given
    rw [addToRuns]
    split
    next => exact List.forall_mem_cons.2 ⟨.single s, given⟩
    next joins =>
      simp only [Bool.or_eq_true, not_or, Bool.not_eq_true] at joins
      refine List.forall_mem_cons.2 ⟨⟨by simp, ?_, ?_⟩, rest⟩
      · rw [List.dropLast_cons_of_ne_nil first.notEmpty]
        exact List.forall_mem_cons.2 ⟨joins.1, first.ends⟩
      · obtain ⟨head, tail, rfl⟩ := List.exists_cons_of_ne_nil first.notEmpty
        exact List.forall_mem_cons.2 ⟨joins.2, first.labels⟩

theorem Body.runs_isRun (body : Body) : ∀ run ∈ body.runs, IsRun run := by
  unfold runs
  induction body with
  | nil => exact nofun
  | cons s body ih =>
    rw [List.foldr_cons]
    exact addToRuns_isRun ih

namespace FlowGraph

def text (blocks : List Block) : List Stmt := blocks.flatMap Block.statements

@[simp] theorem text_nil : text [] = [] := rfl

@[simp] theorem text_cons (b : Block) (blocks : List Block) :
    text (b :: blocks) = b.statements ++ text blocks := rfl

@[simp] theorem text_append (first second : List Block) :
    text (first ++ second) = text first ++ text second := List.flatMap_append

theorem text_bodyBlocks (id offset : Nat) (runs : List (List Stmt)) :
    text (bodyBlocks id offset runs) = runs.flatten := by
  induction runs generalizing id offset with
  | nil => rfl
  | cons run runs ih => simp [bodyBlocks, ih]

theorem statements_mem {id offset : Nat} {runs : List (List Stmt)} {b : Block}
    (member : b ∈ bodyBlocks id offset runs) : b.statements ∈ runs := by
  induction runs generalizing id offset with
  | nil => contradiction
  | cons run runs ih =>
    rcases List.mem_cons.1 member with rfl | within
    · exact List.mem_cons_self
    · exact List.mem_cons_of_mem run (ih within)

/-- Blocks are numbered in a row, and each knows its place. -/
theorem place_of_bodyBlocks {id offset : Nat} {runs : List (List Stmt)} {before after : List Block}
    {b : Block} (given : bodyBlocks id offset runs = before ++ b :: after) :
    b.id = id + before.length ∧ b.offset = offset + (text before).length := by
  induction before generalizing id offset runs with
  | nil =>
    cases runs with
    | nil => contradiction
    | cons run runs =>
      obtain ⟨rfl, _⟩ := List.cons.inj given
      exact ⟨rfl, rfl⟩
  | cons first before ih =>
    cases runs with
    | nil => contradiction
    | cons run runs =>
      obtain ⟨rfl, rest⟩ := List.cons.inj given
      obtain ⟨number, place⟩ := ih rest
      simp only [List.length_cons, text_cons, List.length_append]
      omega

end FlowGraph

open FlowGraph

def Body.blocks (body : Body) : List Block := bodyBlocks 2 0 body.runs

theorem Body.text_blocks (body : Body) : FlowGraph.text body.blocks = body := by
  rw [blocks, text_bodyBlocks, flatten_runs]

/-- The body has the block `b` between others. -/
structure Block.Stands (body : Body) (before : List Block) (b : Block) (after : List Block) :
    Prop where
  blocks : body.blocks = before ++ b :: after

namespace Block.Stands

variable {body : Body} {before after : List Block} {b : Block}

theorem of_mem (member : b ∈ body.blocks) : ∃ before after, Stands body before b after := by
  obtain ⟨before, after, equal⟩ := List.append_of_mem member
  exact ⟨before, after, ⟨equal⟩⟩

theorem mem (stands : Stands body before b after) : b ∈ body.blocks := by
  rw [stands.blocks]
  simp

theorem isRun (stands : Stands body before b after) : IsRun b.statements :=
  body.runs_isRun _ (statements_mem stands.mem)

theorem id (stands : Stands body before b after) : b.id = 2 + before.length :=
  (place_of_bodyBlocks stands.blocks).1

theorem id_ne_startId (stands : Stands body before b after) : b.id ≠ startId := by
  rw [stands.id, startId]
  omega

theorem id_ne_finishId (stands : Stands body before b after) : b.id ≠ finishId := by
  rw [stands.id, finishId]
  omega

theorem offset (stands : Stands body before b after) : b.offset = (text before).length := by
  have place := (place_of_bodyBlocks stands.blocks).2
  omega

theorem text_eq (stands : Stands body before b after) :
    body = text before ++ (b.statements ++ text after) := by
  have whole := body.text_blocks
  rw [stands.blocks, text_append, text_cons] at whole
  exact whole.symm

/-- A block is found again by its number. -/
theorem unique {before' after' : List Block} {b' : Block} (stands : Stands body before b after)
    (stands' : Stands body before' b' after') (same : b.id = b'.id) : b = b' := by
  have sameLength : before.length = before'.length := by
    have := stands.id
    have := stands'.id
    omega
  have first : body.blocks[before.length]? = some b := by simp [stands.blocks]
  have second : body.blocks[before.length]? = some b' := by simp [stands'.blocks, sameLength]
  exact Option.some.inj (first.symm.trans second)

end Block.Stands

namespace FlowGraph

/-- The number of edges that leave blocks not seen. -/
def pending (g : FlowGraph) (seen : List Nat) : Nat :=
  g.edges.countP fun e => !seen.contains e.source

theorem pending_cons (g : FlowGraph) {seen : List Nat} {id : Nat}
    (new : seen.contains id = false) :
    g.pending seen = g.pending (id :: seen) + (g.successors id).length := by
  unfold pending successors
  induction g.edges with
  | nil => rfl
  | cons e edges ih =>
    by_cases same : e.source = id
    · subst same
      have isNew : e.source ∉ seen := by simpa using new
      simp [isNew] at ih ⊢
      omega
    · by_cases old : seen.contains e.source
      · simp [List.countP_cons, same] at ih old ⊢
        simp [old, ih]
      · simp [List.countP_cons, same] at ih old ⊢
        simp [old, ih]
        omega

/-- What the search finds: blocks among which are given ones, and which no edge leaves. -/
structure ClosedUnder (g : FlowGraph) (found given : List Nat) : Prop where
  contains : ∀ id ∈ given, id ∈ found
  closed : ∀ id ∈ found, ∀ target ∈ g.successors id, target ∈ found

theorem visit_closed (g : FlowGraph) (fuel : Nat) (seen queue : List Nat)
    (enough : queue.length + g.pending seen ≤ fuel)
    (closed : ∀ id ∈ seen, ∀ target ∈ g.successors id, target ∈ seen ++ queue) :
    g.ClosedUnder (g.visit fuel seen queue) (seen ++ queue) := by
  induction fuel generalizing seen queue with
  | zero =>
    obtain rfl : queue = [] := List.length_eq_zero_iff.1 (by omega)
    rw [List.append_nil] at closed ⊢
    exact ⟨fun _ => id, closed⟩
  | succ fuel ih =>
    cases queue with
    | nil =>
      rw [List.append_nil] at closed ⊢
      exact ⟨fun _ => id, closed⟩
    | cons first queue =>
      rw [List.length_cons] at enough
      rw [visit]
      split
      next old =>
        have isOld : first ∈ seen := by simpa using old
        have fewer : ∀ id ∈ seen ++ first :: queue, id ∈ seen ++ queue := by
          intro id member
          rcases List.mem_append.1 member with member | member
          · exact List.mem_append_left _ member
          · rcases List.mem_cons.1 member with rfl | member
            · exact List.mem_append_left _ isOld
            · exact List.mem_append_right _ member
        obtain ⟨contains, closed'⟩ := ih seen queue (by omega) fun id member target leads =>
          fewer target (closed id member target leads)
        exact ⟨fun id member => contains id (fewer id member), closed'⟩
      next new =>
        have count := g.pending_cons (Bool.eq_false_iff.2 new)
        have wider : ∀ id ∈ seen ++ first :: queue,
            id ∈ (first :: seen) ++ (queue ++ g.successors first) := by
          intro id member
          simp only [List.mem_append, List.mem_cons] at member ⊢
          rcases member with member | rfl | member <;> simp_all
        obtain ⟨contains, closed'⟩ := ih (first :: seen) (queue ++ g.successors first)
          (by rw [List.length_append]; omega) (by
            intro id member target leads
            rcases List.mem_cons.1 member with rfl | member
            · exact List.mem_append_right _ (List.mem_append_right _ leads)
            · exact wider target (closed id member target leads))
        exact ⟨fun id member => contains id (wider id member), closed'⟩

theorem reachable_closed (g : FlowGraph) : g.ClosedUnder g.reachable [startId] := by
  have enough : [startId].length + g.pending [] ≤ g.edges.length + 2 := by
    have : g.pending [] ≤ g.edges.length := List.countP_le_length
    rw [List.length_singleton]
    omega
  exact g.visit_closed (g.edges.length + 2) [] [startId] enough fun _ member =>
    absurd member List.not_mem_nil

/-- The search keeps to what holds of the blocks it starts with and goes along edges. -/
theorem visit_within (g : FlowGraph) {P : Nat → Prop}
    (along : ∀ id, P id → ∀ target ∈ g.successors id, P target) (fuel : Nat)
    (seen queue : List Nat) (start : ∀ id ∈ seen ++ queue, P id) :
    ∀ id ∈ g.visit fuel seen queue, P id := by
  induction fuel generalizing seen queue with
  | zero => exact fun id member => start id (List.mem_append_left _ member)
  | succ fuel ih =>
    cases queue with
    | nil => exact fun id member => start id (List.mem_append_left _ member)
    | cons first queue =>
      obtain ⟨before, ahead⟩ := List.forall_mem_append.1 start
      obtain ⟨here, later⟩ := List.forall_mem_cons.1 ahead
      rw [visit]
      split
      · exact ih seen queue (List.forall_mem_append.2 ⟨before, later⟩)
      · exact ih (first :: seen) (queue ++ g.successors first) (List.forall_mem_append.2
          ⟨List.forall_mem_cons.2 ⟨here, before⟩, List.forall_mem_append.2 ⟨later, along first here⟩⟩)

/-- The search finds what edges lead to from the start. -/
theorem mem_reachable_iff (g : FlowGraph) {id : Nat} : id ∈ g.reachable ↔
    Relation.ReflTransGen (fun id target => target ∈ g.successors id) startId id := by
  constructor
  · exact g.visit_within (fun _ path _ leads => path.tail leads) (g.edges.length + 2) [] [startId]
      (List.forall_mem_singleton.2 .refl) id
  · intro path
    induction path with
    | refl => exact g.reachable_closed.contains startId List.mem_cons_self
    | tail _ leads ih => exact g.reachable_closed.closed _ ih _ leads

end FlowGraph

end ScriptLang
