import Mathlib.Data.List.Flatten
import Mathlib.Data.List.Sort
import ScriptLang.Proofs.Maintained
import ScriptLang.Proofs.UnreachableRuns

/-! A place of a body is reached if some way along its statements leads there from the front. The
search among the blocks finds just the blocks whose places are reached, so the check for a `return`
on every way, and the removal of what cannot be reached, are exact. -/

namespace ScriptLang

open FlowGraph

namespace Body

variable {body : Body} {before after : List Block} {b : Block} {i j : Nat}

/-- A way along the statements leads from the front of the body to the place. -/
def Reached (body : Body) (place : Nat) : Prop := Relation.ReflTransGen body.LeadsTo 0 place

/-- Control that comes to the place leaves the body other than by a `return`: there is no statement
any more, or the one that stands there jumps to a label that the body does not define. -/
def LeavesAt (body : Body) (place : Nat) : Prop :=
  body[place]? = none ∨
    ∃ s, body[place]? = some s ∧ ∃ l ∈ s.targets, body.labelPlace? l = none

def CanLeave (body : Body) : Prop := ∃ place, body.Reached place ∧ body.LeavesAt place

theorem leadsTo_next_of_not_endsRun {s : Stmt} (goesOn : s.endsRun = false) :
    s.LeadsTo body i (i + 1) := by
  cases s <;> first | contradiction | rfl

theorem leadsTo_next_of_not_isTerminator {s : Stmt} (goesOn : s.isTerminator = false) :
    s.LeadsTo body i (i + 1) := by
  cases s <;> first | contradiction | rfl | exact .inr rfl

theorem leadsTo_of_mem_targets {s : Stmt} {l : Label} (target : l ∈ s.targets)
    (found : body.labelPlace? l = some j) : s.LeadsTo body i j := by
  cases s with
  | goto k => exact List.mem_singleton.1 target ▸ found
  | gotoIf k c value => exact .inl (List.mem_singleton.1 target ▸ found)
  | _ => contradiction

theorem reached_within (stands : b.Stands body before after) (front : body.Reached b.offset) {k : Nat}
    (within : k < b.statements.length) : body.Reached (b.offset + k) := by
  induction k with
  | zero => exact front
  | succ k ih =>
    have here : k < b.statements.length := by omega
    have get := get_of_stands stands here
    rw [List.getElem?_eq_getElem here] at get
    have inner : b.statements[k] ∈ b.statements.dropLast := by
      refine List.mem_of_getElem? (i := k) ?_
      rw [List.getElem?_dropLast, if_pos (by omega), List.getElem?_eq_getElem here]
    exact (ih (by omega)).tail
      ⟨_, get, leadsTo_next_of_not_endsRun (stands.isRun.ends _ inner)⟩

theorem last_of_stands (stands : b.Stands body before after) {s : Stmt}
    (last : b.statements.getLast? = some s) :
    ∃ k, k + 1 = b.statements.length ∧ body[b.offset + k]? = some s := by
  have notEmpty := List.length_pos_iff.2 stands.isRun.notEmpty
  refine ⟨b.statements.length - 1, by omega, ?_⟩
  rw [get_of_stands stands (by omega), ← List.getLast?_eq_getElem?, last]

theorem stop_add_length (stands : b.Stands body before after) :
    b.stop + (FlowGraph.text after).length = body.length := by
  have length := congrArg List.length stands.text_eq
  simp only [List.length_append] at length
  rw [Block.stop, stands.offset]
  omega

theorem offset_of_next {b' : Block} (stands : b.Stands body before (b' :: after)) :
    b'.Stands body (before ++ [b]) after ∧ b'.offset = b.stop := by
  have stands' : b'.Stands body (before ++ [b]) after := ⟨by simp [stands.blocks]⟩
  refine ⟨stands', ?_⟩
  rw [stands'.offset, Block.stop, stands.offset]
  simp

/-- An edge out of a block is that of a jump at its end, of a `return`, or the one to the next
block. -/
theorem cases_of_blockEdge (stands : b.Stands body before after) {next : Nat} {e : Edge}
    (member : e ∈ blockEdges body.blocks b next) :
    ∃ s, b.statements.getLast? = some s ∧
      ((∃ l ∈ s.targets, e.target = labelBlock body.blocks l) ∨
        (s.isReturn = true ∧ e.target = finishId) ∨ (s.isTerminator = false ∧ e.target = next)) := by
  have last := List.getLast?_eq_some_getLast stands.isRun.notEmpty
  refine ⟨_, last, ?_⟩
  rw [blockEdges, last] at member
  cases given : b.statements.getLast stands.isRun.notEmpty with
  | goto l =>
    rw [given] at member
    rw [List.mem_singleton.1 member]
    exact .inl ⟨l, List.mem_cons_self, rfl⟩
  | gotoIf l c value =>
    rw [given] at member
    rcases List.mem_cons.1 member with rfl | member
    · exact .inl ⟨l, List.mem_cons_self, rfl⟩
    · rw [List.mem_singleton.1 member]
      exact .inr (.inr ⟨rfl, rfl⟩)
  | ret value =>
    rw [given] at member
    rw [List.mem_singleton.1 member]
    exact .inr (.inl ⟨rfl, rfl⟩)
  | _ =>
    rw [given] at member
    rw [List.mem_singleton.1 member]
    exact .inr (.inr ⟨rfl, rfl⟩)

theorem labelBlock_of_not_mem {l : Label} (undefined : l.id ∉ definitions body) :
    labelBlock body.blocks l = finishId := by
  have noStart : body.blocks.filter (startsAt l) = [] := by
    rw [List.filter_eq_nil_iff]
    intro b within isStart
    obtain ⟨k, rest, equal, same⟩ := startsAt_iff.1 isStart
    refine undefined (mem_definitions.2 ⟨.label k, ?_, congrArg some same⟩)
    rw [← body.text_blocks]
    exact List.mem_flatMap.2 ⟨b, within, equal ▸ List.mem_cons_self⟩
  show ((body.blocks.filter (startsAt l)).getLast?.map Block.id).getD finishId = finishId
  rw [noStart]
  rfl

/-- An edge out of a reached block leads to a reached block, or to the end: then the block ends in a
`return`, or control leaves the body behind it. -/
theorem follow_blockEdge (stands : b.Stands body before after) (front : body.Reached b.offset)
    {e : Edge} (member : e ∈ blockEdges body.blocks b (firstOf after)) :
    (∃ before', ∃ b' : Block, ∃ after', b'.Stands body before' after' ∧ e.target = b'.id ∧
      body.Reached b'.offset) ∨
    e.target = finishId ∧ (b.endsInReturn = true ∨ body.CanLeave) := by
  obtain ⟨s, last, leads⟩ := cases_of_blockEdge stands member
  obtain ⟨k, length, get⟩ := last_of_stands stands last
  have reached : body.Reached (b.offset + k) := reached_within stands front (by omega)
  rcases leads with ⟨l, target, isTarget⟩ | ⟨isReturn, isFinish⟩ | ⟨goesOn, isNext⟩
  · by_cases defined : l.id ∈ definitions body
    · obtain ⟨before', b', after', stands', _, number, place⟩ := labelBlock_of_mem defined
      exact .inl ⟨before', b', after', stands', isTarget.trans number,
        reached.tail ⟨s, get, leadsTo_of_mem_targets target place⟩⟩
    · exact .inr ⟨isTarget.trans (labelBlock_of_not_mem defined),
        .inr ⟨_, reached, .inr ⟨s, get, l, target, labelPlaceFrom?_eq_none defined⟩⟩⟩
  · exact .inr ⟨isFinish, .inl (by simp [Block.endsInReturn, last, isReturn])⟩
  · have behind : body.Reached b.stop := by
      rw [Block.stop, ← length]
      exact reached.tail ⟨s, get, leadsTo_next_of_not_isTerminator goesOn⟩
    cases after with
    | nil =>
      refine .inr ⟨isNext, .inr ⟨b.stop, behind, .inl ?_⟩⟩
      rw [List.getElem?_eq_none_iff, ← stop_add_length stands]
      exact Nat.le_refl _
    | cons b' rest =>
      obtain ⟨stands', offset⟩ := offset_of_next stands
      exact .inl ⟨_, b', rest, stands', isNext, offset ▸ behind⟩

/-- The edges of the graph of a body are that from the start and those out of its blocks. -/
theorem cases_of_edge {e : Edge} (member : e ∈ (ofBody body).edges) :
    e = ⟨startId, firstOf body.blocks, none⟩ ∨
      ∃ before, ∃ b : Block, ∃ after, b.Stands body before after ∧
        e ∈ blockEdges body.blocks b (firstOf after) := by
  have within (blocks : List Block) (member : e ∈ edgesFrom body.blocks blocks) :
      ∃ before b after, blocks = before ++ b :: after ∧
        e ∈ blockEdges body.blocks b (firstOf after) := by
    induction blocks with
    | nil => contradiction
    | cons first blocks ih =>
      rcases List.mem_append.1 member with here | later
      · exact ⟨[], first, blocks, rfl, here⟩
      · obtain ⟨before, b, after, split, edge⟩ := ih later
        exact ⟨first :: before, b, after, by rw [split]; rfl, edge⟩
  rcases List.mem_cons.1 member with isFirst | member
  · exact .inl isFirst
  · obtain ⟨before, b, after, split, edge⟩ := within body.blocks member
    exact .inr ⟨before, b, after, ⟨split⟩, edge⟩

/-- The search finds only blocks to whose front a way along the statements leads. -/
theorem reached_of_live (stands : b.Stands body before after) (live : body.Live b.id) :
    body.Reached b.offset := by
  have path := (ofBody body).mem_reachable_iff.1 live
  clear live
  generalize number : b.id = id at path
  induction path generalizing before b after with
  | refl => exact absurd number stands.id_ne_startId
  | tail _ leads ih =>
    obtain ⟨e, member, rfl⟩ := List.mem_map.1 leads
    obtain ⟨isEdge, source⟩ := List.mem_filter.1 member
    rcases cases_of_edge isEdge with rfl | ⟨before', b', after', stands', edge⟩
    · cases blocks : body.blocks with
      | nil => simp [stands.blocks] at blocks
      | cons first rest =>
        have isFirst : first.Stands body [] rest := ⟨blocks⟩
        rw [blocks] at number
        rw [stands.unique isFirst number, isFirst.offset]
        exact .refl
    · have front := ih stands' ((source_of_blockEdges edge).symm.trans (by simpa using source))
      rcases follow_blockEdge stands' front edge with ⟨_, b'', _, stands'', same, reached⟩ | ⟨same, _⟩
      · rwa [stands.unique stands'' (number.trans same)]
      · exact absurd (number.trans same) stands.id_ne_finishId

/-- A reached place has its place in the smaller body, which is reached there. -/
theorem Reached.aligned (reached : body.Reached i) :
    ∃ j, body.Aligned i j ∧ body.removeUnreachable.Reached j := by
  induction reached with
  | refl => exact ⟨0, aligned_start body, .refl⟩
  | tail _ leads ih =>
    obtain ⟨j, aligned, reached⟩ := ih
    obtain ⟨j', aligned', leads'⟩ := aligned.leads leads
    exact ⟨j', aligned', reached.tail leads'⟩

theorem Reached.aligned_back (reached : body.removeUnreachable.Reached j) :
    ∃ i, body.Aligned i j ∧ body.Reached i := by
  induction reached with
  | refl => exact ⟨0, aligned_start body, .refl⟩
  | tail _ leads ih =>
    obtain ⟨i, aligned, reached⟩ := ih
    obtain ⟨i', aligned', leads'⟩ := aligned.leads_back leads
    exact ⟨i', aligned', reached.tail leads'⟩

/-- What the search finds at a place, a way along the statements leads to, and the other way
round. -/
theorem livePlace_iff : body.LivePlace i ↔ i < body.length ∧ body.Reached i := by
  constructor
  · intro live
    refine ⟨live.lt, ?_⟩
    obtain ⟨before, b, after, stands, live, above, inside⟩ := live
    obtain ⟨k, rfl⟩ := Nat.exists_eq_add_of_le above
    exact reached_within stands (reached_of_live stands live) (by rw [Block.stop] at inside; omega)
  · rintro ⟨inside, reached⟩
    obtain ⟨j, aligned, _⟩ := reached.aligned
    cases aligned with
    | @inside before after b k stands live within =>
      exact ⟨before, b, after, stands, live, Nat.le_add_right _ _, by rw [Block.stop]; omega⟩
    | finish => exact absurd inside (Nat.lt_irrefl _)

theorem endsInReturn_of_getLast {s : Stmt} (last : b.statements.getLast? = some s) :
    b.endsInReturn = s.isReturn := by
  simp [Block.endsInReturn, last]

theorem not_mem_definitions_of_missing {l : Label} (missing : body.labelPlace? l = none) :
    l.id ∉ definitions body := by
  intro defined
  obtain ⟨place, found⟩ := labelPlace?_of_mem defined
  rw [missing] at found
  contradiction

/-- A jump that leads nowhere has an edge to the end, which the check finds. -/
theorem not_canLeave_of_returns (returns : body.allPathsReturn = true) : ¬body.CanLeave := by
  rintro ⟨place, reached, leaves⟩
  have inside := staysInside_of_returns returns place reached
  rcases leaves with outside | ⟨s, get, l, target, missing⟩
  · exact absurd (List.getElem?_eq_none_iff.1 outside) (Nat.not_le_of_lt inside)
  · obtain ⟨before, b, after, stands, live, above, within⟩ := livePlace_iff.2 ⟨inside, reached⟩
    obtain ⟨k, rfl⟩ := Nat.exists_eq_add_of_le above
    rw [get_of_stands stands (by rw [Block.stop] at within; omega)] at get
    have member := List.mem_of_getElem? get
    obtain ⟨e, leads, same⟩ := edge_of_target stands member target
    have isReturn := endsInReturn_of_edge returns stands live leads
      (same.trans (labelBlock_of_not_mem (not_mem_definitions_of_missing missing)))
    cases s with
    | goto k =>
      rw [endsInReturn_of_getLast (stands.isRun.getLast member rfl)] at isReturn
      contradiction
    | gotoIf k c value =>
      rw [endsInReturn_of_getLast (stands.isRun.getLast member rfl)] at isReturn
      contradiction
    | _ => contradiction

/-- An edge from the start or a found block that leads to the end leaves a block with a `return` at
its end, if no way leaves the body otherwise. -/
theorem ends_of_edge (stays : ¬body.CanLeave) {e : Edge} (member : e ∈ (ofBody body).edges)
    (isFinish : e.target = finishId) (live : body.Live e.source) :
    ∃ b ∈ body.blocks, b.id = e.source ∧ b.endsInReturn = true := by
  rcases cases_of_edge member with rfl | ⟨before, b, after, stands, edge⟩
  · cases blocks : body.blocks with
    | nil =>
      have empty : body = [] := by rw [← body.text_blocks, blocks, text_nil]
      exact absurd ⟨0, .refl, .inl (by simp [empty])⟩ stays
    | cons first rest =>
      have stands : first.Stands body [] rest := ⟨blocks⟩
      rw [blocks] at isFinish
      exact absurd isFinish stands.id_ne_finishId
  · have source := source_of_blockEdges edge
    have front := reached_of_live stands (source ▸ live)
    rcases follow_blockEdge stands front edge with ⟨_, b', _, stands', same, _⟩ | ⟨_, here⟩
    · exact absurd (same.symm.trans isFinish) stands'.id_ne_finishId
    · exact ⟨b, stands.mem, source.symm, here.resolve_right stays⟩

/-- The check finds that every way passes a `return` just when no way leaves the body otherwise. -/
theorem allPathsReturn_iff : body.allPathsReturn = true ↔ ¬body.CanLeave := by
  refine ⟨not_canLeave_of_returns, fun stays => List.all_eq_true.2 fun e member => ?_⟩
  by_cases ends : e.target = finishId ∧ (ofBody body).reachable.contains e.source = true
  · obtain ⟨b, within, same, isReturn⟩ :=
      ends_of_edge stays member ends.1 (List.contains_iff_mem.1 ends.2)
    have found : ((ofBody body).blocks.any fun b' => b'.id == e.source && b'.endsInReturn) = true := by
      refine List.any_eq_true.2 ⟨b, ?_, by simp [same, isReturn]⟩
      exact List.mem_cons_of_mem _ (List.mem_cons_of_mem _ within)
    simp only [found, Bool.or_true]
  · have noEdge : (e.target == finishId && (ofBody body).reachable.contains e.source) = false := by
      rw [← Bool.not_eq_true, Bool.and_eq_true, beq_iff_eq]
      exact ends
    simp only [noEdge, Bool.not_false, Bool.true_or]

def livePlaces (body : Body) : List Nat :=
  (body.blocks.filter body.keeps).flatMap fun b => List.range' b.offset b.statements.length

theorem mem_livePlaces : i ∈ body.livePlaces ↔ i < body.length ∧ body.Reached i := by
  rw [← livePlace_iff, livePlaces, List.mem_flatMap]
  constructor
  · rintro ⟨b, kept, member⟩
    obtain ⟨within, live⟩ := List.mem_filter.1 kept
    obtain ⟨before, after, stands⟩ := Block.Stands.of_mem within
    obtain ⟨above, inside⟩ := List.mem_range'_1.1 member
    exact ⟨before, b, after, stands, keeps_iff.1 live, above, inside⟩
  · rintro ⟨before, b, after, stands, live, above, inside⟩
    exact ⟨b, List.mem_filter.2 ⟨stands.mem, keeps_iff.2 live⟩, List.mem_range'_1.2 ⟨above, inside⟩⟩

theorem places_bodyBlocks (id offset : Nat) (runs : List (List Stmt)) :
    ((bodyBlocks id offset runs).flatMap fun b => List.range' b.offset b.statements.length) =
      List.range' offset runs.flatten.length := by
  induction runs generalizing id offset with
  | nil => rfl
  | cons run runs ih =>
    rw [bodyBlocks, List.flatMap_cons, ih, List.flatten_cons, List.length_append,
      List.range'_append_1]

theorem livePlaces_sublist (body : Body) : body.livePlaces.Sublist (List.range body.length) := by
  have all := places_bodyBlocks 2 0 body.runs
  rw [flatten_runs, ← List.range_eq_range'] at all
  rw [← all]
  exact List.filter_sublist.flatMap _

theorem livePlaces_pairwise (body : Body) : body.livePlaces.Pairwise (· < ·) :=
  List.pairwise_lt_range.sublist body.livePlaces_sublist

/-- What is left are the statements at the places that the search finds. -/
theorem removeUnreachable_at_livePlaces (body : Body) :
    body.removeUnreachable.map some = body.livePlaces.map (body[·]?) := by
  rw [removeUnreachable_eq_text, FlowGraph.text, livePlaces, List.map_flatMap, List.map_flatMap]
  refine List.flatMap_congr fun b kept => ?_
  obtain ⟨_, _, stands⟩ := Block.Stands.of_mem (List.mem_filter.1 kept).1
  refine List.ext_getElem (by simp) fun k inside _ => ?_
  rw [List.length_map] at inside
  have get := get_of_stands stands inside
  rw [List.getElem?_eq_getElem inside] at get
  simp [get]

/-- The places that the search finds stand in the smaller body one behind the other. -/
theorem Aligned.get_livePlaces (aligned : body.Aligned i j) (inside : i < body.length) :
    body.livePlaces[j]? = some i := by
  cases aligned with
  | @inside before after b k stands live within =>
    have length : (FlowGraph.text (before.filter body.keeps)).length =
        ((before.filter body.keeps).flatMap fun b =>
          List.range' b.offset b.statements.length).length := by
      simp [FlowGraph.text, List.length_flatMap]
    rw [livePlaces, stands.blocks, List.filter_append, List.filter_cons_of_pos (keeps_iff.2 live),
      List.flatMap_append, length, List.getElem?_append_right (Nat.le_add_right _ _),
      Nat.add_sub_cancel_left, List.flatMap_cons, List.getElem?_append_left (by simpa using within)]
    simp [List.getElem?_range' within]
  | finish => exact absurd inside (Nat.lt_irrefl _)

theorem Aligned.leavesAt_iff (aligned : body.Aligned i j) :
    body.LeavesAt i ↔ body.removeUnreachable.LeavesAt j := by
  have jumps {s : Stmt} (get : body[i]? = some s) {l : Label} (target : l ∈ s.targets) :
      body.labelPlace? l = none ↔ body.removeUnreachable.labelPlace? l = none := by
    rcases aligned.jump get target with ⟨missing, missing'⟩ | ⟨i', j', found, found', _⟩
    · simp [missing, missing']
    · simp [found, found']
  unfold LeavesAt
  rw [← aligned.get]
  refine or_congr_right (exists_congr fun s => and_congr_right fun get => ?_)
  exact exists_congr fun l => and_congr_right fun target => jumps get target

theorem canLeave_removeUnreachable : body.removeUnreachable.CanLeave ↔ body.CanLeave := by
  constructor
  · rintro ⟨j, reached, leaves⟩
    obtain ⟨i, aligned, reached'⟩ := reached.aligned_back
    exact ⟨i, reached', aligned.leavesAt_iff.2 leaves⟩
  · rintro ⟨i, reached, leaves⟩
    obtain ⟨j, aligned, reached'⟩ := reached.aligned
    exact ⟨j, reached', aligned.leavesAt_iff.1 leaves⟩

/-- Nothing is left that cannot be reached. -/
theorem reached_removeUnreachable (inside : j < body.removeUnreachable.length) :
    body.removeUnreachable.Reached j := by
  have length : body.removeUnreachable.length = body.livePlaces.length := by
    simpa using congrArg List.length body.removeUnreachable_at_livePlaces
  rw [length] at inside
  have here := List.getElem?_eq_getElem inside
  obtain ⟨bound, reached⟩ := mem_livePlaces.1 (List.mem_of_getElem? here)
  obtain ⟨j', aligned, reached'⟩ := reached.aligned
  have same := (List.getElem?_inj inside body.livePlaces_pairwise.nodup).1
    (here.trans (aligned.get_livePlaces bound).symm)
  rwa [same]

/-- Removal takes nothing from a body all of which can be reached. -/
theorem removeUnreachable_eq_self (all : ∀ i < body.length, body.Reached i) :
    body.removeUnreachable = body := by
  have places : body.livePlaces = List.range body.length := by
    refine body.livePlaces_pairwise.eq_of_mem_iff List.pairwise_lt_range fun i => ?_
    rw [mem_livePlaces, List.mem_range]
    exact and_iff_left_of_imp (all i)
  have texts := body.removeUnreachable_at_livePlaces
  have whole : (List.range body.length).map (body[·]?) = body.map some :=
    List.ext_getElem (by simp) fun k _ _ => by simp
  rw [places, whole] at texts
  exact (List.map_inj_right fun _ _ => Option.some.inj).1 texts

/-- What is left of a body are its statements at the reached places, in order. Of that nothing can
be removed, and the check for a `return` on every way answers the same. -/
theorem removeUnreachable_exact (body : Body) :
    (∃ places : List Nat, places.Pairwise (· < ·) ∧
      (∀ place, place ∈ places ↔ place < body.length ∧ body.Reached place) ∧
      body.removeUnreachable.map some = places.map (body[·]?)) ∧
    body.removeUnreachable.removeUnreachable = body.removeUnreachable ∧
    body.removeUnreachable.allPathsReturn = body.allPathsReturn := by
  refine ⟨⟨body.livePlaces, body.livePlaces_pairwise, fun _ => mem_livePlaces,
    body.removeUnreachable_at_livePlaces⟩, ?_, ?_⟩
  · exact removeUnreachable_eq_self fun _ inside => reached_removeUnreachable inside
  · rw [Bool.eq_iff_iff, allPathsReturn_iff, allPathsReturn_iff, canLeave_removeUnreachable]

end Body

/-- A statement that is no return leads to one that may be next. -/
theorem Run.stmt_leads {invoke : Invoke} {body : Body} {isEntry : Bool} {place : Nat} {stmt : Stmt}
    {s t : State} {next : Next} (noReturn : ∀ value, stmt ≠ .ret value)
    (given : Run.stmt invoke body isEntry place stmt s = .ok next t) :
    ∃ target, next = .goto target ∧ stmt.LeadsTo body place target := by
  have jumps {l : Label} {u : State} (jumped : Run.jump body l u = .ok next t) :
      ∃ target, next = .goto target ∧ body.labelPlace? l = some target := by
    unfold Run.jump at jumped
    cases found : body.labelPlace? l with
    | none =>
      rw [found] at jumped
      cases jumped
    | some target =>
      rw [found] at jumped
      cases jumped
      exact ⟨target, rfl, rfl⟩
  cases stmt with
  | declare v e =>
    obtain ⟨_, _, _, rest⟩ := Run.ok_of_bind given
    obtain ⟨_, _, _, rest⟩ := Run.ok_of_bind rest
    cases rest
    exact ⟨place + 1, rfl, rfl⟩
  | expr e =>
    obtain ⟨_, _, _, rest⟩ := Run.ok_of_bind given
    cases isEntry <;>
    · cases rest
      exact ⟨place + 1, rfl, rfl⟩
  | label l =>
    cases given
    exact ⟨place + 1, rfl, rfl⟩
  | goto l => exact jumps given
  | gotoIf l c value =>
    obtain ⟨result, u, _, rest⟩ := Run.ok_of_bind given
    cases result with
    | bool b =>
      by_cases taken : b = value
      · simp only [if_pos taken] at rest
        obtain ⟨target, isGoto, found⟩ := jumps rest
        exact ⟨target, isGoto, .inl found⟩
      · simp only [if_neg taken] at rest
        cases rest
        exact ⟨place + 1, rfl, .inr rfl⟩
    | _ => cases rest
  | ret value => exact absurd rfl (noReturn value)
  | _ => cases given

/-- The run of the body from the place on ends with the value of a `return` that it comes to. -/
inductive Program.Returns (p : Program) (limit : Option Nat) (body : Body) :
    (fuel place : Nat) → State → Option Value → State → Prop
  | here {fuel place : Nat} {s t : State} {e : Option Expr} {value : Option Value}
      (get : body[place]? = some (.ret e))
      (given : Run.stmt (p.callee limit fuel) body s.inEntry place (.ret e) s =
        .ok (.ret value) t) :
      Returns p limit body (fuel + 1) place s value t
  | later {fuel place target : Nat} {stmt : Stmt} {s t u : State} {value : Option Value}
      (get : body[place]? = some stmt)
      (step : Run.stmt (p.callee limit fuel) body s.inEntry place stmt s = .ok (.goto target) t)
      (rest : Returns p limit body fuel target t value u) :
      Returns p limit body (fuel + 1) place s value u

/-- A run that gives a value from a reached place ends at a `return`, if no way leaves the body
otherwise. -/
theorem Program.returns_of_stays {p : Program} {limit : Option Nat} {body : Body}
    (stays : ¬body.CanLeave) {fuel place : Nat} (reached : body.Reached place) {s t : State}
    {value : Option Value} (given : p.runFrom limit fuel body place s = .ok value t) :
    p.Returns limit body fuel place s value t := by
  induction fuel generalizing place s with
  | zero => cases given
  | succ fuel ih =>
    cases get : body[place]? with
    | none => exact absurd ⟨place, reached, .inl get⟩ stays
    | some stmt =>
      rw [p.runFrom_succ limit fuel get] at given
      cases step : Run.stmt (p.callee limit fuel) body s.inEntry place stmt s with
      | error stop u =>
        rw [step] at given
        cases given
      | ok next u =>
        rw [step] at given
        by_cases isReturn : ∃ e, stmt = .ret e
        · obtain ⟨e, rfl⟩ := isReturn
          have ends : next = .ret value ∧ u = t := by
            cases e with
            | none =>
              cases step
              cases given
              exact ⟨rfl, rfl⟩
            | some e =>
              obtain ⟨result, _, _, rest⟩ := Run.ok_of_bind step
              cases rest
              cases given
              exact ⟨rfl, rfl⟩
          obtain ⟨rfl, rfl⟩ := ends
          exact .here get step
        · obtain ⟨target, rfl, leads⟩ := Run.stmt_leads (fun e same => isReturn ⟨e, same⟩) step
          exact .later get step (ih (reached.tail ⟨stmt, get, leads⟩) given)

/-- The check for a `return` on every way is exact: it fails just when some way along the statements
leaves the body otherwise. Where it holds, a run of the body that gives an answer ends at a
`return`. -/
theorem Body.allPathsReturn_exact (body : Body) :
    (body.allPathsReturn = true ↔ ∀ place, body.Reached place → ¬body.LeavesAt place) ∧
    (body.allPathsReturn = true → ∀ (p : Program) (limit : Option Nat) (fuel : Nat) (s t : State)
      (value : Option Value), p.runFrom limit fuel body 0 s = .ok value t →
        p.Returns limit body fuel 0 s value t) := by
  constructor
  · simp only [allPathsReturn_iff, CanLeave, not_exists, not_and]
  · intro returns p limit fuel s t value given
    exact Program.returns_of_stays (allPathsReturn_iff.1 returns) .refl given

namespace TwiceDefined

def again : Label := ⟨0, "again"⟩
def nowhere : Label := ⟨1, "nowhere"⟩

/-- The jump goes to the last definition of its label. The first one cannot be reached, nor the jump
behind it to a label that is not defined. -/
def body : Body :=
  [.goto again, .label again, .goto nowhere, .label again, .ret (some (.literal (.int 7)))]

def program : Program := ⟨.empty, none, [], []⟩

def start : State := ⟨.empty, [.empty], .empty, none⟩

end TwiceDefined

theorem twiceDefined_returns :
    TwiceDefined.body.allPathsReturn = true ∧
    (∀ place, TwiceDefined.body.Reached place → ¬TwiceDefined.body.LeavesAt place) ∧
    TwiceDefined.program.Returns none TwiceDefined.body 3 0 TwiceDefined.start (some (.int 7))
      TwiceDefined.start := by
  have exact := TwiceDefined.body.allPathsReturn_exact
  have returns : TwiceDefined.body.allPathsReturn = true := by decide
  exact ⟨returns, exact.1.1 returns,
    exact.2 returns TwiceDefined.program none 3 TwiceDefined.start TwiceDefined.start _ rfl⟩

end ScriptLang
