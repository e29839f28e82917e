import ScriptLang.Compilation
import ScriptLang.Proofs.LoweringLabels
import ScriptLang.Proofs.Renaming

/-! Lowering takes as many numbers as its statement says, under whatever numbers its symbols have. Its
code is the same but for the numbers, and so is the flow graph of the code. -/

namespace ScriptLang

namespace Stmt

mutual

def lowerCount : Stmt → Nat
  | block body => lowerCountOf body
  | ifThen _ t => 1 + t.lowerCount
  | ifElse _ t e => 2 + (t.lowerCount + e.lowerCount)
  | whileDo _ body _ | doWhile body _ _ => 1 + body.lowerCount
  | forIn _ _ body _ => 3 + body.lowerCount
  | declare _ _ | label _ | goto _ | gotoIf _ _ _ | ret _ | expr _ => 0

def lowerCountOf : List Stmt → Nat
  | [] => 0
  | s :: ss => s.lowerCount + lowerCountOf ss

end

mutual

theorem lower_count (s : Stmt) (n : Nat) : (s.lower n).2 = n + s.lowerCount := by
  cases s with
  | block body => exact lowerAll_count body n
  | ifThen c t => simp only [lower_ifThen, lower_count t, lowerCount, Nat.add_assoc]
  | ifElse c t e => simp only [lower_ifElse, lower_count t, lower_count e, lowerCount, Nat.add_assoc]
  | whileDo c body labels =>
    simp only [lower_whileDo, lower_count body, lowerCount, Nat.add_assoc]
  | doWhile body c labels =>
    simp only [lower_doWhile, lower_count body, lowerCount, Nat.add_assoc]
  | forIn v range body labels =>
    simp only [lower_forIn, lower_count body, lowerCount, Nat.add_assoc]
  | _ => rfl

theorem lowerAll_count (ss : List Stmt) (n : Nat) : (lowerAll ss n).2 = n + lowerCountOf ss := by
  cases ss with
  | nil => rfl
  | cons s ss => simp only [lowerAll_cons, lower_count s, lowerAll_count ss, lowerCountOf, Nat.add_assoc]

end

theorem lowerAll_append (ss ts : List Stmt) (n : Nat) :
    (lowerAll (ss ++ ts) n).1 =
      (lowerAll ss n).1 ++ (lowerAll ts (n + lowerCountOf ss)).1 := by
  induction ss generalizing n with
  | nil => rfl
  | cons s ss ih =>
    rw [List.cons_append, lowerAll_cons, lowerAll_cons, lower_count]
    simp only [ih, lowerCountOf, Nat.add_assoc, List.append_assoc]

end Stmt

section

variable {κ : Relabelling} {n n' : Nat}

theorem Expr.bounds_rename (e : Expr) :
    (e.rename κ).bounds = (e.bounds.1.rename κ, e.bounds.2.rename κ) := by
  cases e <;> rfl

theorem jumpIf_rename (l : Label) (c : Expr) (value : Bool) :
    jumpIf (l.rename κ) (c.rename κ) value = (jumpIf l c value).map (Stmt.rename κ) := by
  unfold jumpIf
  rw [Expr.constantBool?_rename]
  cases c.constantBool? with
  | none => rfl
  | some b => by_cases same : b = value <;> simp [same, Stmt.rename]

theorem loopCode_rename (l : Label) (labels : LoopLabels) (c : Expr) (code : List Stmt) :
    loopCode (l.rename κ) (labels.rename κ) (c.rename κ) (code.map (Stmt.rename κ)) =
      (loopCode l labels c code).map (Stmt.rename κ) := by
  simp only [loopCode, jumpIf_rename, List.map_append, List.map_cons, List.map_nil, Stmt.rename]
  rfl

theorem stepCode_rename (v upper : Var) (labels : LoopLabels) :
    stepCode (v.rename κ) (upper.rename κ) (labels.rename κ) =
      (stepCode v upper labels).map (Stmt.rename κ) := by
  have jump : jumpIf (labels.onBreak.rename κ)
      (.binary (.var (v.rename κ)) .intEquals (.var (upper.rename κ))) true = _ :=
    jumpIf_rename labels.onBreak (.binary (.var v) .intEquals (.var upper)) true
  simp only [stepCode, List.map_append, List.map_cons, List.map_nil, Stmt.rename, ← jump]
  rfl

theorem Label.rename_new (shifts : κ.own n = n') (stem : String) :
    (⟨n, stem⟩ : Label).rename κ = ⟨n', stem⟩ := by rw [Label.rename, shifts]

namespace Stmt

mutual

/-- The code of a statement under other numbers is its code under these. -/
theorem lower_rename {n n' : Nat} (s : Stmt) (shifts : κ.Shifts n n' s.lowerCount) :
    ((s.rename κ).lower n').1 = (s.lower n).1.map (rename κ) ∧
      ((s.rename κ).lower n').2 = n' + s.lowerCount := by
  cases s with
  | block body => exact lowerAll_rename body shifts
  | ifThen c t =>
    obtain ⟨code, stop⟩ := lower_rename t shifts.back
    have done : (⟨n', "end"⟩ : Label) = (⟨n, "end"⟩ : Label).rename κ :=
      (Label.rename_new (shifts 0 (by simp [lowerCount])) _).symm
    rw [rename, lower_ifThen, lower_ifThen, code, stop, done, jumpIf_rename, lowerCount]
    exact ⟨by simp [rename], Nat.add_assoc _ _ _⟩
  | ifElse c t e =>
    obtain ⟨codeT, stopT⟩ := lower_rename t shifts.back.front
    obtain ⟨codeE, stopE⟩ := lower_rename e shifts.back.back
    have done : (⟨n', "end"⟩ : Label) = (⟨n, "end"⟩ : Label).rename κ :=
      (Label.rename_new (shifts 0 (by simp only [lowerCount]; omega)) _).symm
    have otherwise : (⟨n' + 1, "else"⟩ : Label) = (⟨n + 1, "else"⟩ : Label).rename κ :=
      (Label.rename_new (shifts 1 (by simp only [lowerCount]; omega)) _).symm
    rw [rename, lower_ifElse, lower_ifElse, codeT, stopT, codeE, stopE, done, otherwise,
      jumpIf_rename, lower_count t, lowerCount]
    exact ⟨by simp [rename], by simp only [Nat.add_assoc]⟩
  | whileDo c body labels =>
    obtain ⟨code, stop⟩ := lower_rename body shifts.back
    have front : (⟨n', "body"⟩ : Label) = (⟨n, "body"⟩ : Label).rename κ :=
      (Label.rename_new (shifts 0 (by simp [lowerCount])) _).symm
    rw [rename, lower_whileDo, lower_whileDo, code, stop, front, loopCode_rename, lowerCount]
    exact ⟨rfl, Nat.add_assoc _ _ _⟩
  | doWhile body c labels =>
    obtain ⟨code, stop⟩ := lower_rename body shifts.back
    have front : (⟨n', "body"⟩ : Label) = (⟨n, "body"⟩ : Label).rename κ :=
      (Label.rename_new (shifts 0 (by simp [lowerCount])) _).symm
    rw [rename, lower_doWhile, lower_doWhile, code, stop, front, jumpIf_rename, lowerCount]
    exact ⟨by simp [rename, LoopLabels.rename], Nat.add_assoc _ _ _⟩
  | forIn v range body labels =>
    obtain ⟨code, stop⟩ := lower_rename body shifts.back
    have upper : upperBound (v.rename κ) n' = (upperBound v n).rename κ := by
      have first : κ.own n = n' := shifts 0 (by simp only [lowerCount]; omega)
      simp only [upperBound, Var.rename, Var.renumber, Var.relabel, first, κ.hidden]
      rfl
    have test : (⟨n' + 1, "continue"⟩ : Label) = (⟨n + 1, "continue"⟩ : Label).rename κ :=
      (Label.rename_new (shifts 1 (by simp only [lowerCount]; omega)) _).symm
    have front : (⟨n' + 2, "body"⟩ : Label) = (⟨n + 2, "body"⟩ : Label).rename κ :=
      (Label.rename_new (shifts 2 (by simp only [lowerCount]; omega)) _).symm
    have loop := @loopCode_rename κ ⟨n + 2, "body"⟩ ⟨labels.onBreak, ⟨n + 1, "continue"⟩⟩
      (.binary (.var v) .intLessOrEquals (.var (upperBound v n)))
      ((body.lower (n + 3)).1 ++ stepCode v (upperBound v n) labels)
    have whole := congrArg (List.map (rename κ)
      [declare v range.bounds.1, declare (upperBound v n) range.bounds.2] ++ ·) loop
    rw [rename, lower_forIn, lower_forIn, code, stop, upper, test, front, Expr.bounds_rename,
      stepCode_rename, ← List.map_append, lowerCount]
    exact ⟨whole.trans List.map_append.symm, Nat.add_assoc _ _ _⟩
  | gotoIf l c value => exact ⟨jumpIf_rename l c value, rfl⟩
  | ret value => cases value <;> exact ⟨rfl, rfl⟩
  | declare _ _ | label _ | goto _ | expr _ => exact ⟨rfl, rfl⟩

theorem lowerAll_rename {n n' : Nat} (ss : List Stmt) (shifts : κ.Shifts n n' (lowerCountOf ss)) :
    (lowerAll (renameAll κ ss) n').1 = (lowerAll ss n).1.map (rename κ) ∧
      (lowerAll (renameAll κ ss) n').2 = n' + lowerCountOf ss := by
  cases ss with
  | nil => exact ⟨rfl, rfl⟩
  | cons s ss =>
    obtain ⟨code, stop⟩ := lower_rename s shifts.front
    obtain ⟨codes, stops⟩ := lowerAll_rename ss shifts.back
    rw [renameAll, lowerAll_cons, lowerAll_cons, code, stop, codes, stops, lower_count, lowerCountOf]
    exact ⟨by simp, by simp only [Nat.add_assoc]⟩

end

mutual

theorem lowerCount_rename (s : Stmt) : (s.rename κ).lowerCount = s.lowerCount := by
  cases s with
  | block body => exact lowerCountOf_rename body
  | ifThen c t => exact congrArg (1 + ·) (lowerCount_rename t)
  | ifElse c t e => simp only [rename, lowerCount, lowerCount_rename t, lowerCount_rename e]
  | whileDo c body labels => exact congrArg (1 + ·) (lowerCount_rename body)
  | doWhile body c labels => exact congrArg (1 + ·) (lowerCount_rename body)
  | forIn v range body labels => exact congrArg (3 + ·) (lowerCount_rename body)
  | _ => rfl

theorem lowerCountOf_rename (ss : List Stmt) : lowerCountOf (renameAll κ ss) = lowerCountOf ss := by
  cases ss with
  | nil => rfl
  | cons s ss => simp only [renameAll, lowerCountOf, lowerCount_rename s, lowerCountOf_rename ss]

end

variable (s : Stmt)

@[simp] theorem isTerminator_rename : (s.rename κ).isTerminator = s.isTerminator := by
  cases s <;> rfl

@[simp] theorem isLabel_rename : (s.rename κ).isLabel = s.isLabel := by
  cases s <;> rfl

@[simp] theorem isReturn_rename : (s.rename κ).isReturn = s.isReturn := by
  cases s <;> rfl

@[simp] theorem endsRun_rename : (s.rename κ).endsRun = s.endsRun := by
  cases s <;> rfl

end Stmt

theorem Body.close_rename (returns : Ty) (code : Body) :
    close returns (code.rename κ) = (close returns code).rename κ := by
  have last : ((code.rename κ).getLast?.map Stmt.isTerminator).getD false =
      (code.getLast?.map Stmt.isTerminator).getD false := by
    cases given : code.getLast? <;> simp [rename, List.getLast?_map, given]
  unfold close
  rw [last]
  split
  · simp [rename, Stmt.rename]
  · rfl

/-- The flat body of a body under other numbers is its flat body under these. -/
theorem Body.lower_rename {body : Body} (returns : Ty)
    (shifts : κ.Shifts n n' (Stmt.lowerCountOf body)) :
    (body.rename κ).lower returns n' =
      ((body.lower returns n).1.rename κ, n' + Stmt.lowerCountOf body) := by
  obtain ⟨code, stop⟩ := Stmt.lowerAll_rename body shifts
  rw [Stmt.renameAll_eq_map] at code stop
  have whole : Body.rename κ (Stmt.lowerAll body n).1 = _ := code.symm
  refine Prod.ext ?_ stop
  show close returns (Stmt.lowerAll (body.map (Stmt.rename κ)) n').1 =
    Body.rename κ (close returns (Stmt.lowerAll body n).1)
  rw [← close_rename, whole]

theorem addToRuns_rename (s : Stmt) (runs : List (List Stmt)) :
    addToRuns (s.rename κ) (runs.map (List.map (Stmt.rename κ))) =
      (addToRuns s runs).map (List.map (Stmt.rename κ)) := by
  cases runs with
  | nil => rfl
  | cons run runs =>
    have front : ((run.map (Stmt.rename κ)).head?.map Stmt.isLabel).getD false =
        (run.head?.map Stmt.isLabel).getD false := by cases run <;> simp
    rw [List.map_cons, addToRuns, addToRuns, Stmt.endsRun_rename, front]
    split <;> rfl

theorem Body.runs_rename (body : Body) :
    (body.rename κ).runs = body.runs.map (List.map (Stmt.rename κ)) := by
  unfold runs rename
  induction body with
  | nil => rfl
  | cons s body ih => rw [List.map_cons, List.foldr_cons, ih, addToRuns_rename, List.foldr_cons]

variable (κ)

def Block.rename (b : Block) : Block := { b with statements := b.statements.map (Stmt.rename κ) }

def Edge.rename (e : Edge) : Edge :=
  { e with condition := e.condition.map fun p => (p.1.rename κ, p.2) }

def FlowGraph.rename (g : FlowGraph) : FlowGraph :=
  { blocks := g.blocks.map (Block.rename κ), edges := g.edges.map (Edge.rename κ) }

variable {κ}

namespace FlowGraph

theorem bodyBlocks_rename (id offset : Nat) (runs : List (List Stmt)) :
    bodyBlocks id offset (runs.map (List.map (Stmt.rename κ))) =
      (bodyBlocks id offset runs).map (Block.rename κ) := by
  induction runs generalizing id offset with
  | nil => rfl
  | cons run runs ih =>
    rw [List.map_cons, bodyBlocks, bodyBlocks, List.map_cons, ← ih, List.length_map]
    rfl

theorem labelBlock_rename (blocks : List Block) (l : Label) :
    labelBlock (blocks.map (Block.rename κ)) (l.rename κ) = labelBlock blocks l := by
  have last (p q : Block → Bool) (same : ∀ b : Block, p (b.rename κ) = q b) :
      (((blocks.map (Block.rename κ)).filter p).getLast?.map Block.id).getD finishId =
        ((blocks.filter q).getLast?.map Block.id).getD finishId := by
    simp only [List.filter_map, Function.comp_def, same, List.getLast?_map, Option.map_map]
    rfl
  refine last _ _ fun b => ?_
  cases given : b.statements with
  | nil => simp [Block.rename, given]
  | cons s rest => cases s <;> simp [Block.rename, given, Stmt.rename, Label.rename]

theorem blockEdges_rename (blocks : List Block) (b : Block) (next : Nat) :
    blockEdges (blocks.map (Block.rename κ)) (b.rename κ) next =
      (blockEdges blocks b next).map (Edge.rename κ) := by
  have last : (b.rename κ).statements.getLast? = b.statements.getLast?.map (Stmt.rename κ) :=
    List.getLast?_map
  unfold blockEdges
  rw [last]
  cases b.statements.getLast? with
  | none => rfl
  | some s =>
    cases s with
    | goto l => simp [Stmt.rename, labelBlock_rename, Edge.rename, Block.rename]
    | gotoIf l c value => simp [Stmt.rename, labelBlock_rename, Edge.rename, Block.rename]
    | _ => rfl

theorem firstOf_rename (blocks : List Block) :
    firstOf (blocks.map (Block.rename κ)) = firstOf blocks := by
  cases blocks <;> rfl

theorem edgesFrom_rename (blocks rest : List Block) :
    edgesFrom (blocks.map (Block.rename κ)) (rest.map (Block.rename κ)) =
      (edgesFrom blocks rest).map (Edge.rename κ) := by
  induction rest with
  | nil => rfl
  | cons b rest ih =>
    rw [List.map_cons, edgesFrom, edgesFrom, ih, firstOf_rename, blockEdges_rename, List.map_append]

/-- A body under other numbers has the same graph under these. -/
theorem ofBody_rename (body : Body) : ofBody (body.rename κ) = (ofBody body).rename κ := by
  unfold ofBody rename
  simp only [Body.runs_rename, bodyBlocks_rename, edgesFrom_rename, firstOf_rename, List.map_cons]
  rfl

theorem successors_rename (g : FlowGraph) (id : Nat) :
    (g.rename κ).successors id = g.successors id := by
  simp only [successors, rename, List.filter_map, List.map_map]
  rfl

theorem visit_rename (g : FlowGraph) (fuel : Nat) (seen queue : List Nat) :
    (g.rename κ).visit fuel seen queue = g.visit fuel seen queue := by
  induction fuel generalizing seen queue with
  | zero => rfl
  | succ fuel ih =>
    cases queue with
    | nil => rfl
    | cons id queue => simp only [visit, successors_rename, ih]

theorem reachable_rename (g : FlowGraph) : (g.rename κ).reachable = g.reachable := by
  have length : (g.rename κ).edges.length = g.edges.length := List.length_map _
  rw [reachable, reachable, visit_rename, length]

theorem allPathsReturn_rename (g : FlowGraph) : (g.rename κ).allPathsReturn = g.allPathsReturn := by
  have ends (b : Block) : (b.rename κ).endsInReturn = b.endsInReturn := by
    have last : (b.rename κ).statements.getLast? = b.statements.getLast?.map (Stmt.rename κ) :=
      List.getLast?_map
    unfold Block.endsInReturn
    rw [last]
    cases b.statements.getLast? <;> simp
  simp only [allPathsReturn, reachable_rename]
  simp only [rename, List.all_map, List.any_map, Function.comp_def, ends]
  rfl

end FlowGraph

namespace Body

theorem allPathsReturn_rename (body : Body) :
    (body.rename κ).allPathsReturn = body.allPathsReturn := by
  rw [allPathsReturn, allPathsReturn, FlowGraph.ofBody_rename, FlowGraph.allPathsReturn_rename]

theorem removeUnreachable_rename (body : Body) :
    (body.rename κ).removeUnreachable = body.removeUnreachable.rename κ := by
  unfold removeUnreachable
  simp only [FlowGraph.ofBody_rename, FlowGraph.reachable_rename]
  simp only [FlowGraph.rename, List.filter_map, List.flatMap_map, rename, List.map_flatMap]
  rfl

end Body

end

end ScriptLang
