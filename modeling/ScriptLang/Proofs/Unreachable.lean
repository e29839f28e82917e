import ScriptLang.Proofs.FlowBlocks
import ScriptLang.Proofs.SafeCode

/-! A way through a body stays in blocks that the search finds. So what is left without the
other blocks still has every label that it jumps to, and where every way to the end of
the graph passes a `return`, no run gets past the end of the body. -/

namespace ScriptLang

open FlowGraph

theorem IsRun.getLast {run : List Stmt} (isRun : IsRun run) {s : Stmt} (member : s ∈ run)
    (ends : s.endsRun = true) : run.getLast? = some s := by
  have split := List.dropLast_concat_getLast isRun.notEmpty
  rw [← split] at member
  rcases List.mem_append.1 member with inner | last
  · rw [isRun.ends s inner] at ends
    contradiction
  · rw [List.getLast?_eq_some_getLast isRun.notEmpty, List.mem_singleton.1 last]

namespace Body

variable {body : Body} {before after : List Block} {b : Block}

/-- The search finds the block with the number. -/
def Live (body : Body) (id : Nat) : Prop := id ∈ (ofBody body).reachable

theorem live_of_edge {e : Edge} (member : e ∈ (ofBody body).edges) (live : body.Live e.source) :
    body.Live e.target := by
  refine (reachable_closed _).closed _ live _ (List.mem_map_of_mem (List.mem_filter.2 ⟨member, ?_⟩))
  simp

theorem live_first : body.Live (firstOf body.blocks) :=
  live_of_edge (e := ⟨startId, firstOf body.blocks, none⟩) List.mem_cons_self
    ((reachable_closed _).contains startId List.mem_cons_self)

theorem mem_edgesFrom {blocks before after : List Block} {b : Block} {e : Edge}
    (member : e ∈ blockEdges blocks b (firstOf after)) :
    e ∈ edgesFrom blocks (before ++ b :: after) := by
  induction before with
  | nil => exact List.mem_append_left _ member
  | cons first before ih => exact List.mem_append_right _ ih

theorem mem_edges (stands : b.Stands body before after) {e : Edge}
    (member : e ∈ blockEdges body.blocks b (firstOf after)) : e ∈ (ofBody body).edges := by
  have within : e ∈ edgesFrom body.blocks (before ++ b :: after) := mem_edgesFrom member
  rw [← stands.blocks] at within
  exact List.mem_cons_of_mem _ within

theorem source_of_blockEdges {blocks : List Block} {next : Nat} {e : Edge}
    (member : e ∈ blockEdges blocks b next) : e.source = b.id := by
  unfold blockEdges at member
  split at member <;> simp at member
  · rw [member]
  · rcases member with rfl | rfl <;> rfl
  · rw [member]
  · rw [member]

theorem live_of_blockEdge (stands : b.Stands body before after) (live : body.Live b.id) {e : Edge}
    (member : e ∈ blockEdges body.blocks b (firstOf after)) : body.Live e.target := by
  refine live_of_edge (mem_edges stands member) ?_
  rwa [source_of_blockEdges member]

/-- An edge leads on from a block that does not end in a jump or a `return`. -/
theorem edge_behind (blocks : List Block) {b : Block} (next : Nat) {last : Stmt}
    (given : b.statements.getLast? = some last) (goesOn : last.isTerminator = false) :
    ∃ e ∈ blockEdges blocks b next, e.target = next := by
  unfold blockEdges
  rw [given]
  cases last <;> first | contradiction | simp

theorem isLabel_of_definition {s : Stmt} {id : Nat} (defined : s.definition? = some id) :
    ∃ l, s = .label l ∧ l.id = id := by
  cases s with
  | label l => exact ⟨l, rfl, Option.some.inj defined⟩
  | _ => contradiction

/-- A label of a block stands at its front. -/
theorem head_of_label (stands : b.Stands body before after) {l : Label}
    (member : .label l ∈ b.statements) : ∃ rest, b.statements = .label l :: rest := by
  obtain ⟨head, rest, equal⟩ := List.exists_cons_of_ne_nil stands.isRun.notEmpty
  refine ⟨rest, ?_⟩
  rw [equal] at member ⊢
  rcases List.mem_cons.1 member with rfl | inner
  · rfl
  · have noLabel := stands.isRun.labels
    rw [equal] at noLabel
    exact absurd (noLabel _ inner) (by simp [Stmt.isLabel])

def StartsWith (id : Nat) (b : Block) : Prop := ∃ l rest, b.statements = .label l :: rest ∧ l.id = id

theorem split_at_last {α : Type} {p : α → Bool} {xs : List α} (someOne : xs.filter p ≠ []) :
    ∃ before x after, xs = before ++ x :: after ∧ xs.filter p = before.filter p ++ [x] ∧
      p x = true ∧ ∀ y ∈ after, p y = false := by
  induction xs with
  | nil => contradiction
  | cons first xs ih =>
    by_cases others : xs.filter p = []
    · have noOther : ∀ y ∈ xs, p y = false := by simpa using List.filter_eq_nil_iff.1 others
      by_cases keeps : p first = true
      · exact ⟨[], first, xs, rfl, by simp [keeps, others], keeps, noOther⟩
      · simp [keeps, others] at someOne
    · obtain ⟨before, x, after, rfl, kept, holds, last⟩ := ih others
      refine ⟨first :: before, x, after, rfl, ?_, holds, last⟩
      by_cases keeps : p first = true <;> simp only [List.filter_cons, keeps] <;> simp [kept]

def startsAt (l : Label) (b : Block) : Bool :=
  match b.statements.head? with
  | some (.label k) => k.id == l.id
  | _ => false

theorem startsAt_iff {l : Label} {b : Block} : startsAt l b = true ↔ StartsWith l.id b := by
  unfold startsAt
  constructor
  · intro isStart
    split at isStart
    next k head =>
      obtain ⟨rest, equal⟩ := List.head?_eq_some_iff.1 head
      exact ⟨k, rest, equal, by simpa using isStart⟩
    next => contradiction
  · rintro ⟨k, rest, equal, same⟩
    simp [equal, same]

/-- A block with the definition of a label starts with it. -/
theorem startsAt_of_mem {l : Label} {s : Stmt} (within : b ∈ body.blocks) (member : s ∈ b.statements)
    (isLabel : s.definition? = some l.id) : startsAt l b = true := by
  obtain ⟨k, rfl, same⟩ := isLabel_of_definition isLabel
  obtain ⟨_, _, stands⟩ := Block.Stands.of_mem within
  obtain ⟨rest, equal⟩ := head_of_label stands member
  exact startsAt_iff.2 ⟨k, rest, equal, same⟩

/-- The block is the last one that starts with the label. -/
structure LastStart (body : Body) (l : Label) (before : List Block) (b : Block)
    (after : List Block) : Prop where
  stands : b.Stands body before after
  starts : startsAt l b = true
  last : ∀ b' ∈ after, startsAt l b' = false

theorem exists_lastStart {l : Label} (defined : l.id ∈ definitions body) :
    ∃ before b after, body.LastStart l before b after := by
  have someBlock : body.blocks.filter (startsAt l) ≠ [] := by
    obtain ⟨s, member, isLabel⟩ := mem_definitions.1 defined
    rw [← body.text_blocks] at member
    obtain ⟨b, within, member⟩ := List.mem_flatMap.1 member
    exact List.ne_nil_of_mem (List.mem_filter.2 ⟨within, startsAt_of_mem within member isLabel⟩)
  obtain ⟨before, b, after, split, _, isStart, last⟩ := split_at_last someBlock
  exact ⟨before, b, after, ⟨split⟩, isStart, last⟩

namespace LastStart

variable {l : Label}

/-- Jumps in the graph lead to the block. -/
theorem labelBlock (starts : body.LastStart l before b after) :
    labelBlock body.blocks l = b.id := by
  have others : after.filter (startsAt l) = [] := by
    rw [List.filter_eq_nil_iff]
    intro b' within
    simp [starts.last b' within]
  show ((body.blocks.filter (startsAt l)).getLast?.map Block.id).getD finishId = b.id
  rw [starts.stands.blocks, List.filter_append, List.filter_cons_of_pos starts.starts, others,
    List.getLast?_concat]
  rfl

/-- A run finds the label at the front of the block, also where other blocks are missing. -/
theorem labelPlace?_filter (starts : body.LastStart l before b after) (keep : Block → Bool)
    (kept : keep b = true) :
    Body.labelPlace? (FlowGraph.text (body.blocks.filter keep)) l =
      some (FlowGraph.text (before.filter keep)).length := by
  obtain ⟨k, rest, equal, same⟩ := startsAt_iff.1 starts.starts
  have noLater : l.id ∉ definitions (rest ++ FlowGraph.text (after.filter keep)) := by
    intro later
    obtain ⟨s, member, isLabel⟩ := mem_definitions.1 later
    rcases List.mem_append.1 member with inner | behind
    · obtain ⟨k', rfl, _⟩ := isLabel_of_definition isLabel
      have noLabel := starts.stands.isRun.labels
      rw [equal] at noLabel
      exact absurd (noLabel _ inner) (by simp [Stmt.isLabel])
    · obtain ⟨b', within, member⟩ := List.mem_flatMap.1 behind
      have within := (List.mem_filter.1 within).1
      have isBlock : b' ∈ body.blocks := by
        rw [starts.stands.blocks]
        exact List.mem_append_right _ (List.mem_cons_of_mem _ within)
      have isStart := startsAt_of_mem isBlock member isLabel
      rw [starts.last b' within] at isStart
      contradiction
  have found := labelPlaceFrom?_of_last (l := l) (s := .label k)
    (FlowGraph.text (before.filter keep)) 0 (by simp [Stmt.defines, same]) noLater
  rw [starts.stands.blocks, List.filter_append, List.filter_cons_of_pos kept, text_append, text_cons,
    equal]
  simpa [Body.labelPlace?] using found

theorem labelPlace? (starts : body.LastStart l before b after) :
    body.labelPlace? l = some b.offset := by
  have all (blocks : List Block) : blocks.filter (fun _ => true) = blocks := by simp
  have found := starts.labelPlace?_filter (fun _ => true) rfl
  rwa [all, all, text_blocks, ← starts.stands.offset] at found

end LastStart

/-- A label that the body defines stands at the front of the block to which jumps lead, and
that is where a run finds it. -/
theorem labelBlock_of_mem {l : Label} (defined : l.id ∈ definitions body) :
    ∃ before b after, b.Stands body before after ∧ StartsWith l.id b ∧
      labelBlock body.blocks l = b.id ∧ body.labelPlace? l = some b.offset := by
  obtain ⟨before, b, after, starts⟩ := exists_lastStart defined
  exact ⟨before, b, after, starts.stands, startsAt_iff.1 starts.starts, starts.labelBlock,
    starts.labelPlace?⟩

theorem endsInReturn_of_edge (returns : body.allPathsReturn = true)
    (stands : b.Stands body before after) (live : body.Live b.id) {e : Edge}
    (member : e ∈ blockEdges body.blocks b (firstOf after)) (finish : e.target = finishId) :
    b.endsInReturn = true := by
  have every := List.all_eq_true.1 returns e (mem_edges stands member)
  have isLive : (ofBody body).reachable.contains e.source = true := by
    rw [source_of_blockEdges member]
    exact List.contains_iff_mem.2 live
  simp only [finish, beq_self_eq_true, isLive, Bool.and_self, Bool.not_true, Bool.false_or] at every
  obtain ⟨b', within, found⟩ := List.any_eq_true.1 every
  rw [Bool.and_eq_true, beq_iff_eq, source_of_blockEdges member] at found
  have isBody : b' ∈ body.blocks := by
    rcases List.mem_cons.1 within with rfl | within
    · exact absurd found.1.symm stands.id_ne_startId
    · rcases List.mem_cons.1 within with rfl | within
      · exact absurd found.1.symm stands.id_ne_finishId
      · exact within
  obtain ⟨_, _, stands'⟩ := Block.Stands.of_mem isBody
  rw [stands.unique stands' found.1.symm]
  exact found.2

theorem blocks_ne_nil (returns : body.allPathsReturn = true) : body.blocks ≠ [] := by
  intro empty
  have start : (ofBody body).reachable.contains startId = true := by
    simpa using (reachable_closed (ofBody body)).contains startId List.mem_cons_self
  have every := List.all_eq_true.1 returns ⟨startId, firstOf body.blocks, none⟩ List.mem_cons_self
  rw [empty] at every
  simp only [firstOf, beq_self_eq_true, start, Bool.and_self, Bool.not_true, Bool.false_or] at every
  obtain ⟨b, within, found⟩ := List.any_eq_true.1 every
  have all : (ofBody body).blocks = [⟨startId, .start, [], 0⟩, ⟨finishId, .finish, [], 0⟩] := by
    show _ :: _ :: body.blocks = _
    rw [empty]
  rw [all] at within
  simp only [List.mem_cons, List.not_mem_nil, or_false] at within
  rcases within with rfl | rfl <;> simp [Block.endsInReturn] at found

/-- Where every way to the end passes a `return`, a block that goes on has one behind it. -/
theorem live_behind (returns : body.allPathsReturn = true) (stands : b.Stands body before after)
    (live : body.Live b.id) {last : Stmt} (given : b.statements.getLast? = some last)
    (goesOn : last.isTerminator = false) :
    ∃ b' rest, after = b' :: rest ∧ body.Live b'.id := by
  obtain ⟨e, member, target⟩ := edge_behind body.blocks (firstOf after) given goesOn
  cases after with
  | nil =>
    have isReturn := endsInReturn_of_edge returns stands live member target
    rw [Block.endsInReturn, given] at isReturn
    cases last <;> contradiction
  | cons b' rest =>
    have isLive := live_of_blockEdge stands live member
    rw [target] at isLive
    exact ⟨b', rest, rfl, isLive⟩

def LivePlace (body : Body) (place : Nat) : Prop :=
  ∃ before, ∃ b : Block, ∃ after, b.Stands body before after ∧ body.Live b.id ∧
    b.offset ≤ place ∧ place < b.stop

theorem get_of_stands (stands : b.Stands body before after) {k : Nat}
    (inside : k < b.statements.length) : body[b.offset + k]? = b.statements[k]? := by
  have get : (FlowGraph.text before ++ (b.statements ++ FlowGraph.text after))[
      (FlowGraph.text before).length + k]? = b.statements[k]? := by
    rw [List.getElem?_append_right (Nat.le_add_right _ _), Nat.add_sub_cancel_left,
      List.getElem?_append_left inside]
  rwa [← stands.text_eq, ← stands.offset] at get

theorem LivePlace.lt {place : Nat} (live : body.LivePlace place) : place < body.length := by
  obtain ⟨before, b, after, stands, _, _, inside⟩ := live
  have length := congrArg List.length stands.text_eq
  simp only [List.length_append] at length
  rw [Block.stop, stands.offset] at inside
  omega

theorem livePlace_of_live (stands : b.Stands body before after) (live : body.Live b.id) :
    body.LivePlace b.offset := by
  have notEmpty := List.length_pos_iff.2 stands.isRun.notEmpty
  refine ⟨before, b, after, stands, live, Nat.le_refl _, ?_⟩
  rw [Block.stop]
  omega

theorem leadsTo_of_not_endsRun {s : Stmt} {place target : Nat} (goesOn : s.endsRun = false)
    (leads : s.LeadsTo body place target) : target = place + 1 := by
  cases s <;> first | contradiction | exact leads

theorem livePlace_of_leadsTo (returns : body.allPathsReturn = true) {place target : Nat}
    (livePlace : body.LivePlace place) (leads : body.LeadsTo place target) :
    body.LivePlace target := by
  obtain ⟨before, b, after, stands, live, above, inside⟩ := livePlace
  obtain ⟨k, rfl⟩ := Nat.exists_eq_add_of_le above
  obtain ⟨s, get, leads⟩ := leads
  rw [Block.stop] at inside
  have inBlock : k < b.statements.length := by omega
  rw [get_of_stands stands inBlock] at get
  by_cases atEnd : k + 1 = b.statements.length
  · have last : b.statements.getLast? = some s := by
      rw [List.getLast?_eq_getElem?, ← atEnd, Nat.add_sub_cancel, get]
    have next (goesOn : s.isTerminator = false) (isNext : target = b.offset + k + 1) :
        body.LivePlace target := by
      obtain ⟨b', rest, rfl, live'⟩ := live_behind returns stands live last goesOn
      have stands' : b'.Stands body (before ++ [b]) rest := ⟨by simp [stands.blocks]⟩
      have offset := stands'.offset
      rw [text_append, List.length_append, ← stands.offset] at offset
      simp only [text_cons, text_nil, List.append_nil] at offset
      rw [show target = b'.offset by omega]
      exact livePlace_of_live stands' live'
    have jump {l : Label} (found : body.labelPlace? l = some target)
        (edge : ∃ e ∈ blockEdges body.blocks b (firstOf after), e.target = labelBlock body.blocks l) :
        body.LivePlace target := by
      have defined : l.id ∈ definitions body := by
        by_cases defined : l.id ∈ definitions body
        · exact defined
        · rw [labelPlace?, labelPlaceFrom?_eq_none defined] at found
          contradiction
      obtain ⟨_, b', _, stands', _, number, place⟩ := labelBlock_of_mem defined
      obtain ⟨e, member, same⟩ := edge
      have live' := live_of_blockEdge stands live member
      rw [same, number] at live'
      rw [found] at place
      obtain rfl := Option.some.inj place
      exact livePlace_of_live stands' live'
    cases s with
    | goto l => exact jump leads (by simp [blockEdges, last])
    | gotoIf l c value =>
      rcases leads with leads | isNext
      · exact jump leads (by simp [blockEdges, last])
      · exact next rfl isNext
    | ret value => exact leads.elim
    | _ => exact next rfl leads
  · have inner : s ∈ b.statements.dropLast := by
      refine List.mem_of_getElem? (i := k) ?_
      rw [List.getElem?_dropLast, if_pos (by omega), get]
    obtain rfl := leadsTo_of_not_endsRun (stands.isRun.ends s inner) leads
    refine ⟨before, b, after, stands, live, by omega, ?_⟩
    rw [Block.stop]
    omega

theorem staysInside_of_returns (returns : body.allPathsReturn = true) : body.StaysInside := by
  refine .of_closed body.LivePlace ?_ (fun _ live => live.lt)
    fun _ _ live leads => livePlace_of_leadsTo returns live leads
  have first := @live_first body
  cases blocks : body.blocks with
  | nil => exact absurd blocks (blocks_ne_nil returns)
  | cons b rest =>
    rw [blocks] at first
    have stands : b.Stands body [] rest := ⟨blocks⟩
    have place := livePlace_of_live stands first
    rwa [stands.offset] at place

theorem removeUnreachable_eq (body : Body) : body.removeUnreachable =
    FlowGraph.text (body.blocks.filter fun b => (ofBody body).reachable.contains b.id) := by
  show (List.filter _ (⟨startId, .start, [], 0⟩ :: ⟨finishId, .finish, [], 0⟩ ::
    body.blocks)).flatMap Block.statements = _
  simp only [List.filter_cons]
  split <;> split <;> rfl

theorem mem_removeUnreachable {s : Stmt} :
    s ∈ body.removeUnreachable ↔ ∃ b ∈ body.blocks, body.Live b.id ∧ s ∈ b.statements := by
  rw [removeUnreachable_eq, FlowGraph.text, List.mem_flatMap]
  constructor
  · rintro ⟨b, kept, member⟩
    obtain ⟨within, live⟩ := List.mem_filter.1 kept
    exact ⟨b, within, List.contains_iff_mem.1 live, member⟩
  · rintro ⟨b, within, live, member⟩
    exact ⟨b, List.mem_filter.2 ⟨within, List.contains_iff_mem.2 live⟩, member⟩

theorem mem_of_mem_removeUnreachable {s : Stmt} (member : s ∈ body.removeUnreachable) :
    s ∈ body := by
  obtain ⟨b, within, _, member⟩ := mem_removeUnreachable.1 member
  rw [← body.text_blocks]
  exact List.mem_flatMap.2 ⟨b, within, member⟩

/-- An edge leads from the block of a jump to the block of its label. -/
theorem edge_of_target (stands : b.Stands body before after) {s : Stmt} (member : s ∈ b.statements)
    {l : Label} (target : l ∈ s.targets) :
    ∃ e ∈ blockEdges body.blocks b (firstOf after), e.target = labelBlock body.blocks l := by
  unfold blockEdges
  cases s with
  | goto l' =>
    obtain rfl := List.mem_singleton.1 target
    rw [stands.isRun.getLast member rfl]
    exact ⟨_, List.mem_cons_self, rfl⟩
  | gotoIf l' c value =>
    obtain rfl := List.mem_singleton.1 target
    rw [stands.isRun.getLast member rfl]
    exact ⟨_, List.mem_cons_self, rfl⟩
  | _ => contradiction

/-- The labels to which kept statements jump are kept. -/
theorem removeUnreachable_targets (targets : ∀ s ∈ body, ∀ l ∈ s.targets, l.id ∈ definitions body) :
    ∀ s ∈ body.removeUnreachable, ∀ l ∈ s.targets, l.id ∈ definitions body.removeUnreachable := by
  intro s kept l target
  have defined := targets s (mem_of_mem_removeUnreachable kept) l target
  obtain ⟨b, within, live, member⟩ := mem_removeUnreachable.1 kept
  obtain ⟨before, after, stands⟩ := Block.Stands.of_mem within
  obtain ⟨_, b', _, stands', ⟨k, rest, equal, same⟩, number, _⟩ := labelBlock_of_mem defined
  obtain ⟨e, leads, isTarget⟩ := edge_of_target stands member target
  have live' := live_of_blockEdge stands live leads
  rw [isTarget, number] at live'
  refine mem_definitions.2 ⟨.label k, mem_removeUnreachable.2 ⟨b', stands'.mem, live', ?_⟩, ?_⟩
  · rw [equal]
    exact List.mem_cons_self
  · exact congrArg some same

theorem removeUnreachable_staysInside (returns : body.allPathsReturn = true) :
    body.removeUnreachable.StaysInside := by
  have first := @live_first body
  have someBlock : body.blocks.filter (fun b => (ofBody body).reachable.contains b.id) ≠ [] := by
    cases blocks : body.blocks with
    | nil => exact absurd blocks (blocks_ne_nil returns)
    | cons b rest =>
      rw [blocks] at first
      exact List.ne_nil_of_mem
        (List.mem_filter.2 ⟨List.mem_cons_self, List.contains_iff_mem.2 first⟩)
  obtain ⟨before, b, after, split, filtered, isLive, last⟩ := split_at_last someBlock
  have stands : b.Stands body before after := ⟨split⟩
  have lastStmt := List.getLast?_eq_some_getLast stands.isRun.notEmpty
  have kept : body.removeUnreachable.getLast? = b.statements.getLast? := by
    rw [removeUnreachable_eq, filtered, text_append, text_cons, text_nil, List.append_nil,
      List.getLast?_append, lastStmt]
    rfl
  refine .of_getLast (kept.trans lastStmt) ?_
  cases goesOn : (b.statements.getLast stands.isRun.notEmpty).isTerminator with
  | true => rfl
  | false =>
    obtain ⟨b', rest, rfl, live'⟩ := live_behind returns stands (List.contains_iff_mem.1 isLive)
      lastStmt goesOn
    have notLive := last b' List.mem_cons_self
    rw [List.contains_iff_mem.2 live'] at notLive
    contradiction

end Body

end ScriptLang
