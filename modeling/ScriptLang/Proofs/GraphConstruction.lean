import ScriptLang.Proofs.CutBlocks
import ScriptLang.Proofs.ReachedPlaces

/-! After its body is cut, a graph is connected edge by edge: each edge gets the next place in the list
of edges, and the two blocks at its ends store that place. The blocks are numbered by their places,
so nothing is stored where there is no block, and what a block stores are the places of its edges.
The search for reachable blocks reads what is stored. It takes one round for the start and one for
each edge out of a block that it finds, and then it is over. -/

namespace ScriptLang

open FlowGraph

def LinkedBlock.addOutgoing (place : Nat) (b : LinkedBlock) : LinkedBlock :=
  { b with outgoing := b.outgoing ++ [place] }

def LinkedBlock.addIncoming (place : Nat) (b : LinkedBlock) : LinkedBlock :=
  { b with incoming := b.incoming ++ [place] }

/-- The graph with one more edge, which is stored by the blocks at its ends. There is no such graph
if it has no such blocks. -/
def LinkedGraph.connect? (g : LinkedGraph) (e : Edge) : Option LinkedGraph :=
  if e.source < g.blocks.length ∧ e.target < g.blocks.length then
    some
      { blocks := (g.blocks.modify e.source (.addOutgoing g.edges.length)).modify e.target
          (.addIncoming g.edges.length)
        edges := g.edges ++ [e] }
  else none

def Body.link? (body : Body) : Option LinkedGraph :=
  body.cut?.bind fun g => (ofBody body).edges.foldlM LinkedGraph.connect? g

namespace FlowGraph

def IsNumbered (blocks : List Block) : Prop := ∀ i (b : Block), blocks[i]? = some b → b.id = i

theorem incoming_concat (blocks : List Block) (edges : List Edge) (e : Edge) (id : Nat) :
    incoming ⟨blocks, edges ++ [e]⟩ id =
      incoming ⟨blocks, edges⟩ id ++ if e.target = id then [edges.length] else [] := by
  unfold incoming
  rw [List.zipIdx_append, List.filter_append, List.map_append]
  by_cases here : e.target = id <;> simp [here]

theorem outgoing_concat (blocks : List Block) (edges : List Edge) (e : Edge) (id : Nat) :
    outgoing ⟨blocks, edges ++ [e]⟩ id =
      outgoing ⟨blocks, edges⟩ id ++ if e.source = id then [edges.length] else [] := by
  unfold outgoing
  rw [List.zipIdx_append, List.filter_append, List.map_append]
  by_cases here : e.source = id <;> simp [here]

variable {blocks : List Block}

/-- What the blocks store of the edges so far, and of one more. -/
theorem connect?_linked (numbered : IsNumbered blocks) (edges : List Edge) {e : Edge}
    (source : e.source < blocks.length) (target : e.target < blocks.length) :
    (linked ⟨blocks, edges⟩).connect? e = some (linked ⟨blocks, edges ++ [e]⟩) := by
  have inside : e.source < (linked ⟨blocks, edges⟩).blocks.length ∧
      e.target < (linked ⟨blocks, edges⟩).blocks.length := by
    simpa [linked] using ⟨source, target⟩
  rw [LinkedGraph.connect?, if_pos inside]
  refine congrArg (fun blocks => some (LinkedGraph.mk blocks (edges ++ [e])))
    (List.ext_getElem? fun i => ?_)
  simp only [linked, List.getElem?_modify, List.getElem?_map]
  cases get : blocks[i]? with
  | none => simp
  | some b =>
    have number := numbered i b get
    simp only [link, incoming_concat, outgoing_concat, number, Option.map_some]
    by_cases out : e.source = i <;> by_cases into : e.target = i <;>
      simp [out, into, LinkedBlock.addOutgoing, LinkedBlock.addIncoming]

theorem foldlM_connect?_linked (numbered : IsNumbered blocks) (edges more : List Edge)
    (inside : ∀ e ∈ more, e.source < blocks.length ∧ e.target < blocks.length) :
    more.foldlM LinkedGraph.connect? (linked ⟨blocks, edges⟩) =
      some (linked ⟨blocks, edges ++ more⟩) := by
  induction more generalizing edges with
  | nil => rw [List.append_nil, List.foldlM_nil]; rfl
  | cons e more ih =>
    obtain ⟨⟨source, target⟩, rest⟩ := List.forall_mem_cons.1 inside
    rw [List.foldlM_cons, connect?_linked numbered edges source target]
    show more.foldlM LinkedGraph.connect? (linked ⟨blocks, edges ++ [e]⟩) = _
    rw [ih _ rest, List.append_assoc, List.singleton_append]

theorem bodyBlocks_getElem? {id offset i : Nat} {runs : List (List Stmt)} {b : Block}
    (get : (bodyBlocks id offset runs)[i]? = some b) : b.id = id + i ∧ b.kind = .body := by
  induction runs generalizing id offset i with
  | nil => cases get
  | cons run runs ih =>
    cases i with
    | zero =>
      obtain rfl := Option.some.inj get
      exact ⟨rfl, rfl⟩
    | succ i =>
      obtain ⟨number, kind⟩ := ih get
      exact ⟨by omega, kind⟩

end FlowGraph

namespace Body

variable {body : Body}

/-- Blocks are numbered by their places, and those that hold statements stand behind the start and
the end. -/
theorem block_getElem? {i : Nat} {b : Block} (get : (ofBody body).blocks[i]? = some b) :
    b.id = i ∧ (b.kind = .body ↔ 2 ≤ i) := by
  rcases i with _ | _ | i
  · obtain rfl := Option.some.inj get
    simp [startId]
  · obtain rfl := Option.some.inj get
    simp [finishId]
  · obtain ⟨number, kind⟩ := bodyBlocks_getElem? get
    exact ⟨by omega, iff_of_true kind (Nat.le_add_left 2 i)⟩

theorem isNumbered (body : Body) : IsNumbered (ofBody body).blocks := fun _ _ get =>
  (block_getElem? get).1

theorem id_lt_length {b : Block} (member : b ∈ body.blocks) :
    b.id < (ofBody body).blocks.length := by
  obtain ⟨before, after, stands⟩ := Block.Stands.of_mem member
  have length : (ofBody body).blocks.length = body.blocks.length + 2 := rfl
  rw [length, stands.id, stands.blocks, List.length_append, List.length_cons]
  omega

theorem finishId_lt_length (body : Body) : finishId < (ofBody body).blocks.length :=
  Nat.succ_lt_succ (Nat.zero_lt_succ _)

theorem firstOf_lt_length {before blocks : List Block} (split : body.blocks = before ++ blocks) :
    firstOf blocks < (ofBody body).blocks.length := by
  cases blocks with
  | nil => exact body.finishId_lt_length
  | cons b rest => exact id_lt_length (split ▸ List.mem_append_right before List.mem_cons_self)

theorem labelBlock_lt_length (l : Label) :
    labelBlock body.blocks l < (ofBody body).blocks.length := by
  by_cases defined : l.id ∈ definitions body
  · obtain ⟨_, b, _, stands, _, number, _⟩ := labelBlock_of_mem defined
    exact number ▸ id_lt_length stands.mem
  · rw [labelBlock_of_not_mem defined]
    exact body.finishId_lt_length

/-- Every edge goes from a block to a block. -/
theorem edge_inside {e : Edge} (member : e ∈ (ofBody body).edges) :
    e.source < (ofBody body).blocks.length ∧ e.target < (ofBody body).blocks.length := by
  rcases cases_of_edge member with rfl | ⟨before, b, after, stands, edge⟩
  · have split : body.blocks = [] ++ body.blocks := rfl
    exact ⟨Nat.zero_lt_succ _, firstOf_lt_length split⟩
  · have split : body.blocks = (before ++ [b]) ++ after := by simp [stands.blocks]
    refine ⟨source_of_blockEdges edge ▸ id_lt_length stands.mem, ?_⟩
    obtain ⟨_, _, ⟨l, _, isTarget⟩ | ⟨_, isFinish⟩ | ⟨_, isNext⟩⟩ := cases_of_blockEdge stands edge
    · exact isTarget ▸ labelBlock_lt_length l
    · exact isFinish ▸ body.finishId_lt_length
    · exact isNext ▸ firstOf_lt_length split

/-- The construction never leaves the body or the blocks, and gives the graph of the body. -/
theorem link?_eq (body : Body) : body.link? = some (ofBody body).linked := by
  rw [link?, cut?_eq, Option.bind_some]
  exact foldlM_connect?_linked body.isNumbered [] _ fun _ => edge_inside

end Body

namespace FlowGraph

/-- The places of the edges with a property. -/
def placesOf (p : Edge → Bool) (edges : List Edge) : List Nat :=
  (edges.zipIdx.filter fun x => p x.1).map Prod.snd

theorem incoming_eq (g : FlowGraph) (id : Nat) :
    g.incoming id = placesOf (fun e => e.target == id) g.edges := rfl

theorem outgoing_eq (g : FlowGraph) (id : Nat) :
    g.outgoing id = placesOf (fun e => e.source == id) g.edges := rfl

variable {p : Edge → Bool} {edges : List Edge} {i : Nat}

theorem mem_placesOf : i ∈ placesOf p edges ↔ ∃ e, edges[i]? = some e ∧ p e = true := by
  simp [placesOf, List.mem_zipIdx_iff_getElem?]

theorem lt_of_mem_placesOf (member : i ∈ placesOf p edges) : i < edges.length := by
  obtain ⟨e, get, _⟩ := mem_placesOf.1 member
  exact (List.getElem?_eq_some_iff.1 get).1

theorem nodup_placesOf : (placesOf p edges).Nodup := by
  have all : (edges.zipIdx.map Prod.snd).Nodup := by
    rw [List.zipIdx_map_snd]
    exact List.nodup_range'
  exact (List.filter_sublist.map Prod.snd).nodup all

theorem count_placesOf {e : Edge} (get : edges[i]? = some e) :
    (placesOf p edges).count i = if p e = true then 1 else 0 := by
  have here : i ∈ placesOf p edges ↔ p e = true := by simp [mem_placesOf, get]
  rw [List.Nodup.count nodup_placesOf]
  exact if_congr here rfl rfl

variable {g : FlowGraph}

theorem count_outgoing {e : Edge} (get : g.edges[i]? = some e) (id : Nat) :
    (g.outgoing id).count i = if e.source = id then 1 else 0 := by
  rw [outgoing_eq, count_placesOf get]
  exact if_congr beq_iff_eq rfl rfl

theorem count_incoming {e : Edge} (get : g.edges[i]? = some e) (id : Nat) :
    (g.incoming id).count i = if e.target = id then 1 else 0 := by
  rw [incoming_eq, count_placesOf get]
  exact if_congr beq_iff_eq rfl rfl

end FlowGraph

namespace LinkedGraph

/-- The queue, with the blocks behind it to which the edges at some places lead. There is no such
queue if there is no edge at one of the places. -/
def follow? (g : LinkedGraph) (queue : List Nat) : List Nat → Option (List Nat)
  | [] => some queue
  | place :: places => (g.edges[place]?).bind fun e => g.follow? (queue ++ [e.target]) places

/-- The blocks that are found once the queue is empty. Each round takes a block from the front of
the queue; if it is new, the blocks to which its edges lead are put at the end. There is no answer
if the search is not over after so many rounds, or if there is no such block or edge. -/
def search? (g : LinkedGraph) : (rounds : Nat) → (found queue : List Nat) → Option (List Nat)
  | _, found, [] => some found
  | 0, _, _ :: _ => none
  | rounds + 1, found, id :: queue =>
    if found.contains id then g.search? rounds found queue
    else (g.blocks[id]?).bind fun b =>
      (g.follow? queue b.outgoing).bind fun queue => g.search? rounds (id :: found) queue

theorem follow?_eq (g : LinkedGraph) (queue : List Nat) {row : List (Edge × Nat)}
    (each : ∀ x ∈ row, g.edges[x.2]? = some x.1) :
    g.follow? queue (row.map Prod.snd) = some (queue ++ row.map fun x => x.1.target) := by
  induction row generalizing queue with
  | nil => simp [follow?]
  | cons x row ih =>
    obtain ⟨first, rest⟩ := List.forall_mem_cons.1 each
    rw [List.map_cons, follow?, first, Option.bind_some, ih _ rest]
    simp

end LinkedGraph

namespace FlowGraph

variable {g : FlowGraph}

theorem follow?_outgoing (g : FlowGraph) (queue : List Nat) (id : Nat) :
    g.linked.follow? queue (g.outgoing id) = some (queue ++ g.successors id) := by
  have each (x : Edge × Nat) (member : x ∈ g.edges.zipIdx.filter fun x => x.1.source == id) :
      g.linked.edges[x.2]? = some x.1 :=
    List.mem_zipIdx_iff_getElem?.1 (List.mem_filter.1 member).1
  rw [outgoing_eq, placesOf, LinkedGraph.follow?_eq _ _ each, successors]
  have edges : (g.edges.zipIdx.filter fun x => x.1.source == id).map Prod.fst =
      g.edges.filter fun e => e.source == id := by
    calc
      _ = (g.edges.zipIdx.map Prod.fst).filter fun e => e.source == id := List.filter_map.symm
      _ = g.edges.filter fun e => e.source == id := by rw [List.zipIdx_map_fst]
  rw [← edges, List.map_map]
  rfl

theorem block_linked (numbered : IsNumbered g.blocks) {id : Nat} (inside : id < g.blocks.length) :
    ∃ b, g.linked.blocks[id]? = some b ∧ b.outgoing = g.outgoing id := by
  have get := List.getElem?_eq_getElem inside
  refine ⟨_, by rw [linked, List.getElem?_map, get, Option.map_some], ?_⟩
  rw [link, numbered id _ get]

theorem successors_lt_length (inside : ∀ e ∈ g.edges, e.target < g.blocks.length) (id : Nat) :
    ∀ target ∈ g.successors id, target < g.blocks.length := by
  intro target member
  obtain ⟨e, isEdge, rfl⟩ := List.mem_map.1 member
  exact inside e (List.mem_filter.1 isEdge).1

theorem mem_visit (g : FlowGraph) (fuel : Nat) {found queue : List Nat} {id : Nat}
    (member : id ∈ found) : id ∈ g.visit fuel found queue := by
  induction fuel generalizing found queue with
  | zero => exact member
  | succ fuel ih =>
    cases queue with
    | nil => exact member
    | cons first queue =>
      rw [visit]
      split
      · exact ih member
      · exact ih (List.mem_cons_of_mem first member)

theorem pending_visit_le (g : FlowGraph) (fuel : Nat) (found queue : List Nat) :
    g.pending (g.visit fuel found queue) ≤ g.pending found := by
  refine List.countP_mono_left fun e _ isNew => ?_
  simp only [Bool.not_eq_true', List.contains_eq_mem, decide_eq_false_iff_not] at isNew ⊢
  exact fun old => isNew (g.mem_visit fuel old)

/-- The search finds what `visit` finds, and each of its rounds takes a block from the queue, or
moves edges there that leave a block that was not found before. -/
theorem search?_linked (numbered : IsNumbered g.blocks)
    (inside : ∀ e ∈ g.edges, e.target < g.blocks.length) (fuel rounds : Nat)
    {found queue : List Nat} (enough : queue.length + g.pending found ≤ fuel)
    (known : ∀ id ∈ queue, id < g.blocks.length) :
    g.linked.search? rounds found queue =
      if queue.length + g.pending found ≤ rounds + g.pending (g.visit fuel found queue) then
        some (g.visit fuel found queue) else none := by
  -- A round takes one from the sum of the queue and the edges that are still to be moved there: an
  -- old block just leaves the queue, and the edges of a new one go from one part to the other.
  induction fuel generalizing rounds found queue with
  | zero =>
    obtain rfl : queue = [] := List.length_eq_zero_iff.1 (by omega)
    rw [visit, if_pos (by simp), LinkedGraph.search?]
  | succ fuel ih =>
    cases queue with
    | nil => rw [visit, if_pos (by simp), LinkedGraph.search?]
    | cons id queue =>
      obtain ⟨here, others⟩ := List.forall_mem_cons.1 known
      rw [List.length_cons] at enough ⊢
      cases rounds with
      | zero =>
        have fewer := g.pending_visit_le (fuel + 1) found (id :: queue)
        rw [LinkedGraph.search?, if_neg (by omega)]
      | succ rounds =>
        by_cases old : found.contains id = true
        · have same : g.visit (fuel + 1) found (id :: queue) = g.visit fuel found queue := by
            rw [visit, if_pos old]
          rw [LinkedGraph.search?, if_pos old, same, ih rounds (by omega) others]
          exact if_congr (by omega) rfl rfl
        · have same : g.visit (fuel + 1) found (id :: queue) =
              g.visit fuel (id :: found) (queue ++ g.successors id) := by
            rw [visit, if_neg old]
          have count := g.pending_cons (Bool.eq_false_iff.2 old)
          have length := @List.length_append _ queue (g.successors id)
          have known' := List.forall_mem_append.2 ⟨others, successors_lt_length inside id⟩
          obtain ⟨b, get, outgoing⟩ := block_linked numbered here
          rw [LinkedGraph.search?, if_neg old, get, Option.bind_some, outgoing, follow?_outgoing,
            Option.bind_some, same, ih rounds (by omega) known']
          exact if_congr (by omega) rfl rfl

/-- The rounds that the search takes: one for the start, and one for each edge out of a block that
it finds. -/
def searchRounds (g : FlowGraph) : Nat := 1 + g.edges.countP fun e => g.reachable.contains e.source

theorem search?_start (numbered : IsNumbered g.blocks) (notEmpty : startId < g.blocks.length)
    (inside : ∀ e ∈ g.edges, e.target < g.blocks.length) (rounds : Nat) :
    g.linked.search? rounds [] [startId] =
      if g.searchRounds ≤ rounds then some g.reachable else none := by
  have all : g.pending [] = g.edges.length := by simp [pending]
  have split : g.edges.length =
      (g.edges.countP fun e => g.reachable.contains e.source) + g.pending g.reachable := by
    rw [List.length_eq_countP_add_countP fun e : Edge => g.reachable.contains e.source]
    simp [pending]
  have enough : [startId].length + g.pending [] ≤ g.edges.length + 2 := by
    rw [all, List.length_singleton]
    omega
  rw [search?_linked numbered inside (g.edges.length + 2) rounds enough
    (List.forall_mem_singleton.2 notEmpty)]
  refine if_congr ?_ rfl rfl
  show [startId].length + g.pending [] ≤ rounds + g.pending g.reachable ↔ _
  rw [all, List.length_singleton, searchRounds]
  omega

end FlowGraph

/-- Blocks stand in a row from one place of a body up to another, none of them empty, each with the
statements from its first place up to its last. -/
def Body.Tiles (body : Body) : (first last : Nat) → List LinkedBlock → Prop
  | first, last, [] => first = last
  | first, last, b :: rest =>
    b.offset = first ∧ first < b.last ∧ body.slice? first b.last = some b.statements ∧
      body.Tiles b.last last rest

def LinkedGraph.bodyBlocks (g : LinkedGraph) : List LinkedBlock :=
  g.blocks.filter fun b => b.kind = .body

/-- What holds of the graph of a body and of what it stores. -/
structure LinkedGraph.WellFormed (g : LinkedGraph) (body : Body) : Prop where
  start : ∃ b, g.blocks[0]? = some b ∧ b.kind = .start ∧ b.statements = []
  finish : ∃ b, g.blocks[1]? = some b ∧ b.kind = .finish ∧ b.statements = []
  numbered : ∀ (i : Nat) (b : LinkedBlock), g.blocks[i]? = some b →
    b.id = i ∧ (b.kind = .body ↔ 2 ≤ i)
  statements : g.bodyBlocks.flatMap (fun b => b.statements) = body
  tiles : body.Tiles 0 body.length g.bodyBlocks
  /-- None is empty, labels stand first in a block, and jumps and returns last. -/
  runs : ∀ b ∈ g.bodyBlocks, IsRun b.statements
  inside : ∀ e ∈ g.edges, e.source < g.blocks.length ∧ e.target < g.blocks.length
  /-- The place of an edge occurs once, among the edges out of its source, and once among those into
  its target. -/
  stored : ∀ (i : Nat) (e : Edge), g.edges[i]? = some e → ∀ b ∈ g.blocks,
    b.outgoing.count i = (if e.source = b.id then 1 else 0) ∧
      b.incoming.count i = (if e.target = b.id then 1 else 0)
  places : ∀ b ∈ g.blocks, ∀ i, i ∈ b.outgoing ∨ i ∈ b.incoming → i < g.edges.length

namespace Body

variable {body : Body}

theorem tiles_link {g : FlowGraph} {before : List Stmt} {id : Nat} {runs : List (List Stmt)}
    (split : body = before ++ runs.flatten) (notEmpty : ∀ run ∈ runs, run ≠ []) :
    body.Tiles before.length body.length ((bodyBlocks id before.length runs).map g.link) := by
  induction runs generalizing before id with
  | nil => simp [split, bodyBlocks, Tiles]
  | cons run runs ih =>
    obtain ⟨first, rest⟩ := List.forall_mem_cons.1 notEmpty
    have some := List.length_pos_iff.2 first
    rw [List.flatten_cons] at split
    have behind := @ih (before ++ run) (id + 1) (by rw [split, List.append_assoc]) rest
    rw [List.length_append] at behind
    refine ⟨rfl, ?_, slice?_of_split split, behind⟩
    show before.length < before.length + run.length
    omega

theorem bodyBlocks_linked (body : Body) :
    (ofBody body).linked.bodyBlocks = body.blocks.map (ofBody body).link := by
  have kinds : ∀ b ∈ body.blocks.map (ofBody body).link, decide (b.kind = .body) = true := by
    intro b member
    obtain ⟨b', within, rfl⟩ := List.mem_map.1 member
    obtain ⟨i, get⟩ := List.getElem?_of_mem within
    exact decide_eq_true (bodyBlocks_getElem? get).2
  exact List.filter_eq_self.2 kinds

theorem isRun_of_mem {b : LinkedBlock} (member : b ∈ (ofBody body).linked.bodyBlocks) :
    IsRun b.statements := by
  rw [bodyBlocks_linked] at member
  obtain ⟨b', within, rfl⟩ := List.mem_map.1 member
  exact body.runs_isRun _ (statements_mem within)

theorem linked_wellFormed (body : Body) : (ofBody body).linked.WellFormed body where
  start := ⟨_, rfl, rfl, rfl⟩
  finish := ⟨_, rfl, rfl, rfl⟩
  numbered i b stored := by
    rw [linked, List.getElem?_map] at stored
    obtain ⟨b', get, rfl⟩ := Option.map_eq_some_iff.1 stored
    exact block_getElem? get
  statements := by
    rw [bodyBlocks_linked, List.flatMap_map]
    exact body.text_blocks
  tiles := by
    rw [bodyBlocks_linked]
    have split : body = [] ++ body.runs.flatten := body.flatten_runs.symm
    exact tiles_link split fun run member => (body.runs_isRun run member).notEmpty
  runs _ := isRun_of_mem
  inside e member := by
    rw [linked, List.length_map]
    exact edge_inside member
  stored i e get b member := by
    obtain ⟨b', _, rfl⟩ := List.mem_map.1 member
    exact ⟨count_outgoing get b'.id, count_incoming get b'.id⟩
  places b member i stored := by
    obtain ⟨b', _, rfl⟩ := List.mem_map.1 member
    rcases stored with out | into
    · have place : i ∈ placesOf (fun e => e.source == b'.id) (ofBody body).edges := out
      exact lt_of_mem_placesOf place
    · have place : i ∈ placesOf (fun e => e.target == b'.id) (ofBody body).edges := into
      exact lt_of_mem_placesOf place

/-- The loop that cuts a body and the loop that connects the blocks never look for what is not
there. Together they give the graph of the body and what its blocks store, and that is well-formed.
The search in it ends after one round for the start and one for each edge out of a block that it
finds. It finds the blocks to which a row of edges leads from the start. -/
theorem link?_wellFormed (body : Body) :
    body.link? = some (ofBody body).linked ∧ (ofBody body).linked.WellFormed body ∧
      (∀ rounds, (ofBody body).linked.search? rounds [] [startId] =
        if (ofBody body).searchRounds ≤ rounds then some (ofBody body).reachable else none) ∧
      ∀ id, id ∈ (ofBody body).reachable ↔ Relation.ReflTransGen
        (fun a b => ∃ e ∈ (ofBody body).edges, e.source = a ∧ e.target = b) startId id := by
  refine ⟨body.link?_eq, body.linked_wellFormed, fun rounds => ?_, fun id => ?_⟩
  · have targets (e : Edge) (member : e ∈ (ofBody body).edges) := (edge_inside member).2
    exact search?_start body.isNumbered (Nat.zero_lt_succ _) targets rounds
  · have same : (fun a b => ∃ e ∈ (ofBody body).edges, e.source = a ∧ e.target = b) =
        fun a b => b ∈ (ofBody body).successors a := by
      funext a b
      simp [successors, and_assoc]
    rw [same]
    exact mem_reachable_iff _

end Body

end ScriptLang
