import ScriptLang.Printer
import ScriptLang.Text.Blank

/-! A body is cut into runs of statements that control enters only at the front and leaves
only at the end. The runs are the blocks of a graph that also has a block for the start
and one for the end. From the graph one reads which statements can be reached and
whether every way to the end passes a `return`. -/

namespace ScriptLang

namespace Stmt

def isLabel : Stmt → Bool
  | label _ => true
  | _ => false

def isReturn : Stmt → Bool
  | ret _ => true
  | _ => false

/-- Control may go elsewhere after the statement, so a run ends with it. -/
def endsRun : Stmt → Bool
  | goto _ | gotoIf _ _ _ | ret _ => true
  | _ => false

end Stmt

/-- A statement put in front of runs joins the first of them, unless the statement ends
a run or the first run starts with a label. -/
def addToRuns (s : Stmt) : List (List Stmt) → List (List Stmt)
  | [] => [[s]]
  | run :: runs =>
    if s.endsRun || (run.head?.map Stmt.isLabel).getD false then [s] :: run :: runs
    else (s :: run) :: runs

def Body.runs (body : Body) : List (List Stmt) := body.foldr addToRuns []

@[simp] theorem flatten_addToRuns (s : Stmt) (runs : List (List Stmt)) :
    (addToRuns s runs).flatten = s :: runs.flatten := by
  cases runs with
  | nil => rfl
  | cons run runs =>
    rw [addToRuns]
    split <;> rfl

/-- The runs together are the body. -/
theorem Body.flatten_runs (body : Body) : body.runs.flatten = body := by
  unfold runs
  induction body with
  | nil => rfl
  | cons s body ih => rw [List.foldr_cons, flatten_addToRuns, ih]

inductive BlockKind where
  | start | finish | body
  deriving DecidableEq, Repr, Inhabited

structure Block where
  id : Nat
  kind : BlockKind
  statements : List Stmt
  /-- The place of the first statement in the body. -/
  offset : Nat
  deriving Inhabited

def Block.stop (b : Block) : Nat := b.offset + b.statements.length

def Block.endsInReturn (b : Block) : Bool := (b.statements.getLast?.map Stmt.isReturn).getD false

/-- An edge, taken when the condition, if there is one, has the given value. -/
structure Edge where
  source : Nat
  target : Nat
  condition : Option (Expr × Bool)
  deriving Inhabited

structure FlowGraph where
  blocks : List Block
  edges : List Edge
  deriving Inhabited

namespace FlowGraph

def startId : Nat := 0

def finishId : Nat := 1

/-- The blocks of runs, numbered from `id`, the first of them at place `offset`. -/
def bodyBlocks (id offset : Nat) : List (List Stmt) → List Block
  | [] => []
  | run :: runs => ⟨id, .body, run, offset⟩ :: bodyBlocks (id + 1) (offset + run.length) runs

/-- The last block that starts with a label, or the end if there is none. -/
def labelBlock (blocks : List Block) (l : Label) : Nat :=
  let starts (b : Block) : Bool :=
    match b.statements.head? with
    | some (.label k) => k.id == l.id
    | _ => false
  ((blocks.filter starts).getLast?.map Block.id).getD finishId

def blockEdges (blocks : List Block) (b : Block) (next : Nat) : List Edge :=
  match b.statements.getLast? with
  | some (.goto l) => [⟨b.id, labelBlock blocks l, none⟩]
  | some (.gotoIf l c value) =>
    [⟨b.id, labelBlock blocks l, some (c, value)⟩, ⟨b.id, next, some (c, !value)⟩]
  | some (.ret _) => [⟨b.id, finishId, none⟩]
  | _ => [⟨b.id, next, none⟩]

def firstOf : List Block → Nat
  | [] => finishId
  | b :: _ => b.id

def edgesFrom (blocks : List Block) : List Block → List Edge
  | [] => []
  | b :: rest => blockEdges blocks b (firstOf rest) ++ edgesFrom blocks rest

def ofBody (body : Body) : FlowGraph :=
  let blocks := bodyBlocks 2 0 body.runs
  { blocks := ⟨startId, .start, [], 0⟩ :: ⟨finishId, .finish, [], 0⟩ :: blocks
    edges := ⟨startId, firstOf blocks, none⟩ :: edgesFrom blocks blocks }

def incoming (g : FlowGraph) (id : Nat) : List Nat :=
  (g.edges.zipIdx.filter fun (e, _) => e.target == id).map Prod.snd

def outgoing (g : FlowGraph) (id : Nat) : List Nat :=
  (g.edges.zipIdx.filter fun (e, _) => e.source == id).map Prod.snd

def successors (g : FlowGraph) (id : Nat) : List Nat :=
  (g.edges.filter fun e => e.source == id).map Edge.target

def visit (g : FlowGraph) : (fuel : Nat) → (seen queue : List Nat) → List Nat
  | 0, seen, _ => seen
  | _ + 1, seen, [] => seen
  | fuel + 1, seen, id :: queue =>
    if seen.contains id then g.visit fuel seen queue
    else g.visit fuel (id :: seen) (queue ++ g.successors id)

/-- The blocks that can be reached from the start. The start and the target of every
edge enter the queue at most once each. -/
def reachable (g : FlowGraph) : List Nat := g.visit (g.edges.length + 2) [] [startId]

def isReachable (g : FlowGraph) (id : Nat) : Bool := g.reachable.contains id

/-- Every edge from a reachable block to the end leaves a block that ends in `return`. -/
def allPathsReturn (g : FlowGraph) : Bool :=
  let live := g.reachable
  g.edges.all fun e =>
    !(e.target == finishId && live.contains e.source) ||
      g.blocks.any fun b => b.id == e.source && b.endsInReturn

def escape (s : String) : String :=
  let escapeChar : Char → List Char
    | '\\' => ['\\', '\\']
    | '"' => ['\\', '"']
    | '\n' => ['\\', 'l']
    | c => [c]
  String.ofList ((trimEnd s.toList).flatMap escapeChar)

def blockText (names : LabelNames) (b : Block) : String :=
  match b.kind with
  | .start => "<Start>"
  | .finish => "<End>"
  | .body => String.join (b.statements.map (Stmt.text names))

def edgeText (e : Edge) : String :=
  let arrow := "    N" ++ toString e.source ++ " -> N" ++ toString e.target
  match e.condition with
  | none => arrow ++ "\n"
  | some (c, value) =>
    arrow ++ " [label = \"" ++ escape ((if value then "" else "not ") ++ c.text) ++ "\"]\n"

def dot (names : LabelNames) (g : FlowGraph) : String :=
  let node (b : Block) : String :=
    "    N" ++ toString b.id ++ " [label = \"" ++ escape (blockText names b) ++ "\", shape = box]\n"
  "digraph G \x7b\n" ++ String.join (g.blocks.map node) ++ String.join (g.edges.map edgeText) ++
    "\x7d\n"

end FlowGraph

namespace Body

/-- The body without the statements of blocks that cannot be reached. -/
def removeUnreachable (body : Body) : Body :=
  let g := FlowGraph.ofBody body
  let live := g.reachable
  (g.blocks.filter fun b => live.contains b.id).flatMap Block.statements

def allPathsReturn (body : Body) : Bool := (FlowGraph.ofBody body).allPathsReturn

def dot (body : Body) : String := (FlowGraph.ofBody body).dot (LabelNames.ofBody body)

end Body

end ScriptLang
