import Mathlib.Algebra.Order.BigOperators.Group.List
import Mathlib.Algebra.Order.Group.Nat
import ScriptLang.Proofs.AssignedCode
import ScriptLang.Proofs.CompletingCode

/-! Where control never comes every variable counts as assigned, also one that is declared nowhere. So
the rules for assigned variables show what control cannot reach: the code behind a statement that
does not complete, and the labels to which only such code jumps. Together with the ways through code
that completes, this tells whether control comes to the end of a lowered body. -/

namespace ScriptLang

/-- All variables count as assigned if control does not come there. -/
def AssignedUnless (reached : Bool) (_ : Var) : Prop := reached = false

namespace Covers

variable {atLabel : Nat → Var → Prop} {M : Var → Prop} {code : List Stmt} {entered : Bool}

theorem jumpIf_unless {l : Label} {c : Expr} {value : Bool}
    (jumps : ∀ v, atLabel l.id v → (entered && c.mayBe value) = false) :
    Covers atLabel (fun _ => True) (AssignedUnless entered) (ScriptLang.jumpIf l c value)
      (AssignedUnless (entered && c.mayBe (!value))) := by
  have mentions (v : Var) (_ : v ∈ c.vars) : True ∨ AssignedUnless entered v := .inl trivial
  unfold ScriptLang.jumpIf
  unfold Expr.mayBe at *
  cases known : c.constantBool? with
  | none =>
    simp only [known] at jumps ⊢
    refine .one mentions (List.forall_mem_singleton.2 fun v isAt => ?_) (by simp) fun _ wider v isM => ?_
    · simpa [AssignedUnless] using jumps v isAt
    · exact wider v (by simpa [AssignedUnless] using isM)
  | some b =>
    by_cases same : b = value
    · simp only [known, if_pos same] at jumps ⊢
      exact .goto fun v isAt => by simpa [AssignedUnless, same] using jumps v isAt
    · have other : b = !value := by cases b <;> cases value <;> simp at same ⊢
      simp only [if_neg same]
      exact .nil fun v isM => by simpa [AssignedUnless, other] using isM

/-- A loop that tests its condition first: its body is entered if the condition may be true, and
behind it comes control from a false condition and from `break`. -/
theorem loopCode_unless {l : Label} {labels : LoopLabels} {c : Expr}
    (onBody : ∀ v, atLabel l.id v ↔ (entered && c.mayBe true) = false)
    (onContinue : ∀ v, atLabel labels.onContinue.id v ↔ entered = false)
    (onBreak : ∀ v, atLabel labels.onBreak.id v → (entered && c.mayBe false) = false)
    (body : Covers atLabel (fun _ => True) (AssignedUnless (entered && c.mayBe true)) code
      (AssignedUnless entered))
    (leaves : ∀ v, M v → atLabel labels.onBreak.id v) :
    Covers atLabel (fun _ => True) (AssignedUnless entered) (ScriptLang.loopCode l labels c code)
      M := by
  have enter : Covers atLabel (fun _ => True) (AssignedUnless entered)
      ([.goto labels.onContinue] ++ [.label l]) (AssignedUnless (entered && c.mayBe true)) :=
    (Covers.goto (M := atLabel l.id) fun v => (onContinue v).1).append
      (.label (fun _ => id) fun v => (onBody v).2)
  have test : Covers atLabel (fun _ => True) (AssignedUnless entered) [.label labels.onContinue]
      (AssignedUnless entered) := .label (fun v => (onContinue v).1) fun v => (onContinue v).2
  exact (((enter.append body).append test).append (.jumpIf_unless fun v => (onBody v).1)).append
    (.label onBreak leaves)

end Covers

namespace Stmt

mutual

/-- The labels in the flat code of a statement, in order, and whether control comes to them if the
statement is entered. -/
def reachedLabels (entered : Bool) : Stmt → Nat → List (Nat × Bool)
  | block body, n => reachedLabelsOf entered body n
  | ifThen c t, n =>
    t.reachedLabels (entered && c.mayBe true) (n + 1) ++ [(n, entered && (ifThen c t).completes)]
  | ifElse c t e, n =>
    t.reachedLabels (entered && c.mayBe true) (n + 2) ++ [(n + 1, entered && c.mayBe false)] ++
      e.reachedLabels (entered && c.mayBe false) (t.lower (n + 2)).2 ++
      [(n, entered && (ifElse c t e).completes)]
  | whileDo c body l, n =>
    (n, entered && c.mayBe true) :: (body.reachedLabels (entered && c.mayBe true) (n + 1) ++
      [(l.onContinue.id, entered), (l.onBreak.id, entered && (whileDo c body l).completes)])
  | doWhile body c l, n =>
    (n, entered) :: (body.reachedLabels entered (n + 1) ++
      [(l.onContinue.id, entered && (body.completes || body.jumpsTo l.onContinue)),
        (l.onBreak.id, entered && (doWhile body c l).completes)])
  | forIn _ _ body l, n =>
    (n + 2, entered) :: (body.reachedLabels entered (n + 3) ++
      [(l.onContinue.id, entered), (n + 1, entered), (l.onBreak.id, entered)])
  | label l, _ => [(l.id, entered)]
  | declare _ _, _ | goto _, _ | gotoIf _ _ _, _ | ret _, _ | expr _, _ => []

def reachedLabelsOf (entered : Bool) : List Stmt → Nat → List (Nat × Bool)
  | [], _ => []
  | s :: ss, n =>
    s.reachedLabels entered n ++ reachedLabelsOf (entered && s.completes) ss (s.lower n).2

end

mutual

theorem reachedLabels_keys (entered : Bool) (s : Stmt) (n : Nat) :
    (s.reachedLabels entered n).map Prod.fst = definitions (s.lower n).1 := by
  cases s with
  | block body => exact reachedLabelsOf_keys entered body n
  | ifThen c t =>
    rw [lower_ifThen]
    simp [reachedLabels, reachedLabels_keys _ t]
  | ifElse c t e =>
    rw [lower_ifElse]
    simp [reachedLabels, reachedLabels_keys _ t, reachedLabels_keys _ e]
  | whileDo c body labels =>
    rw [lower_whileDo]
    simp [reachedLabels, reachedLabels_keys _ body]
  | doWhile body c labels =>
    rw [lower_doWhile]
    simp [reachedLabels, reachedLabels_keys _ body]
  | forIn w range body labels =>
    rw [lower_forIn]
    simp [reachedLabels, reachedLabels_keys _ body]
  | gotoIf l c value => exact (definitions_jumpIf l c value).symm
  | declare _ _ | label _ | goto _ | ret _ | expr _ => rfl

theorem reachedLabelsOf_keys (entered : Bool) (ss : List Stmt) (n : Nat) :
    (reachedLabelsOf entered ss n).map Prod.fst = definitions (lowerAll ss n).1 := by
  cases ss with
  | nil => rfl
  | cons s ss =>
    rw [lowerAll_cons]
    simp [reachedLabelsOf, reachedLabels_keys _ s, reachedLabelsOf_keys _ ss]

end

/-- Code that jumps to those labels goes to no label of a loop that counts as not reached. -/
def LeavesBy (atLabel : Nat → Var → Prop) (loops : List LoopLabels) (jumps : Label → Bool) : Prop :=
  ∀ k ∈ loops, ∀ v, (atLabel k.onBreak.id v → jumps k.onBreak = false) ∧
    (atLabel k.onContinue.id v → jumps k.onContinue = false)

section

variable {atLabel : Nat → Var → Prop}

theorem LeavesBy.mono {loops : List LoopLabels} {jumps fewer : Label → Bool}
    (outer : LeavesBy atLabel loops jumps)
    (part : ∀ l, jumps l = false → fewer l = false) : LeavesBy atLabel loops fewer :=
  fun k member v => (outer k member v).imp (part _ ∘ ·) (part _ ∘ ·)

theorem LeavesBy.enter {loops : List LoopLabels} {jumps : Label → Bool}
    (outer : LeavesBy atLabel loops jumps) {labels : LoopLabels}
    (onBreak : ∀ v, atLabel labels.onBreak.id v → jumps labels.onBreak = false)
    (onContinue : ∀ v, atLabel labels.onContinue.id v → jumps labels.onContinue = false) :
    LeavesBy atLabel (labels :: loops) jumps :=
  List.forall_mem_cons.2 ⟨fun v => ⟨onBreak v, onContinue v⟩, outer⟩

/-- The loop is left by `break`, and its body goes on with `continue`. -/
theorem LeavesBy.enterWhile {loops : List LoopLabels} {c : Expr} {body : Stmt} {labels : LoopLabels}
    {entered : Bool} (outer : LeavesBy atLabel loops fun l => entered && (whileDo c body labels).jumpsTo l)
    (onContinue : ∀ v, atLabel labels.onContinue.id v ↔ entered = false)
    (onBreak : ∀ v, atLabel labels.onBreak.id v ↔
      (entered && (whileDo c body labels).completes) = false) :
    LeavesBy atLabel (labels :: loops) fun l => (entered && c.mayBe true) && body.jumpsTo l := by
  refine (outer.mono fun l none => by grind [jumpsTo]).enter (fun v isAt => ?_) fun v isAt => ?_
  · have notReached := (onBreak v).1 isAt
    grind [completes]
  · have notReached := (onContinue v).1 isAt
    grind

theorem LeavesBy.enterDo {loops : List LoopLabels} {c : Expr} {body : Stmt} {labels : LoopLabels}
    {entered : Bool} (outer : LeavesBy atLabel loops fun l => entered && (doWhile body c labels).jumpsTo l)
    (onContinue : ∀ v, atLabel labels.onContinue.id v ↔
      (entered && (body.completes || body.jumpsTo labels.onContinue)) = false)
    (onBreak : ∀ v, atLabel labels.onBreak.id v ↔
      (entered && (doWhile body c labels).completes) = false) :
    LeavesBy atLabel (labels :: loops) fun l => entered && body.jumpsTo l := by
  refine outer.enter (fun v isAt => ?_) fun v isAt => ?_
  · have notReached := (onBreak v).1 isAt
    grind [completes, jumpsTo]
  · have notReached := (onContinue v).1 isAt
    grind [jumpsTo]

theorem LeavesBy.enterFor {loops : List LoopLabels} {body : Stmt} {labels : LoopLabels} {entered : Bool}
    (outer : LeavesBy atLabel loops fun l => entered && body.jumpsTo l)
    (onContinue : ∀ v, atLabel labels.onContinue.id v ↔ entered = false)
    (onBreak : ∀ v, atLabel labels.onBreak.id v ↔ entered = false) :
    LeavesBy atLabel (labels :: loops) fun l => entered && body.jumpsTo l := by
  refine outer.enter (fun v isAt => ?_) fun v isAt => ?_
  · simp [(onBreak v).1 isAt]
  · simp [(onContinue v).1 isAt]

/-- Control comes behind the code only if it is left, once control comes to it only if it is entered. -/
abbrev Leaves (atLabel : Nat → Var → Prop) (entered : Bool) (code : List Stmt) (left : Bool) : Prop :=
  Covers atLabel (fun _ => True) (AssignedUnless entered) code (AssignedUnless left)

section

variable {entered : Bool} {n : Nat} {c : Expr}

theorem declare_leaves (w : Var) (e : Expr) : Leaves atLabel entered [declare w e] entered :=
  (Covers.declare fun _ _ => .inl trivial).weaken (fun _ => id) fun _ => .inl

theorem ifThen_leaves {t : Stmt}
    (inner : Leaves atLabel (entered && c.mayBe true) (t.lower (n + 1)).1
      ((entered && c.mayBe true) && t.completes))
    (atEnd : ∀ v, atLabel n v ↔ (entered && (ifThen c t).completes) = false) :
    Leaves atLabel entered ((ifThen c t).lower n).1 (entered && (ifThen c t).completes) := by
  rw [lower_ifThen]
  refine ((Covers.jumpIf_unless fun v isAt => ?_).append inner).append
    (.label (fun v isAt => ?_) fun v => (atEnd v).2)
  · have notReached := (atEnd v).1 isAt
    grind [completes]
  · have notReached := (atEnd v).1 isAt
    grind [completes, AssignedUnless]

theorem ifElse_leaves {t e : Stmt}
    (first : Leaves atLabel (entered && c.mayBe true) (t.lower (n + 2)).1
      ((entered && c.mayBe true) && t.completes))
    (second : Leaves atLabel (entered && c.mayBe false) (e.lower (t.lower (n + 2)).2).1
      ((entered && c.mayBe false) && e.completes))
    (atElse : ∀ v, atLabel (n + 1) v ↔ (entered && c.mayBe false) = false)
    (atEnd : ∀ v, atLabel n v ↔ (entered && (ifElse c t e).completes) = false) :
    Leaves atLabel entered ((ifElse c t e).lower n).1 (entered && (ifElse c t e).completes) := by
  have between : Leaves atLabel ((entered && c.mayBe true) && t.completes)
      ([.goto ⟨n, "end"⟩] ++ [.label ⟨n + 1, "else"⟩]) (entered && c.mayBe false) := by
    refine (Covers.goto (M := atLabel (n + 1)) fun v isAt => ?_).append
      (.label (fun _ => id) fun v => (atElse v).2)
    have notReached := (atEnd v).1 isAt
    grind [completes, AssignedUnless]
  rw [lower_ifElse]
  refine ((((Covers.jumpIf_unless fun v => (atElse v).1).append first).append between).append
    second).append (.label (fun v isAt => ?_) fun v => (atEnd v).2)
  have notReached := (atEnd v).1 isAt
  grind [completes, AssignedUnless]

theorem whileDo_leaves {body : Stmt} {labels : LoopLabels}
    (inner : Leaves atLabel (entered && c.mayBe true) (body.lower (n + 1)).1
      ((entered && c.mayBe true) && body.completes))
    (onBody : ∀ v, atLabel n v ↔ (entered && c.mayBe true) = false)
    (onContinue : ∀ v, atLabel labels.onContinue.id v ↔ entered = false)
    (onBreak : ∀ v, atLabel labels.onBreak.id v ↔
      (entered && (whileDo c body labels).completes) = false) :
    Leaves atLabel entered ((whileDo c body labels).lower n).1
      (entered && (whileDo c body labels).completes) := by
  rw [lower_whileDo]
  refine .loopCode_unless onBody onContinue (fun v isAt => ?_)
    (inner.weaken (fun _ => id) fun v notEntered => ?_) fun v => (onBreak v).2
  · have notReached := (onBreak v).1 isAt
    grind [completes]
  · grind [AssignedUnless]

theorem doWhile_leaves {body : Stmt} {labels : LoopLabels}
    (inner : Leaves atLabel entered (body.lower (n + 1)).1 (entered && body.completes))
    (onBody : ∀ v, atLabel n v ↔ entered = false)
    (onContinue : ∀ v, atLabel labels.onContinue.id v ↔
      (entered && (body.completes || body.jumpsTo labels.onContinue)) = false)
    (onBreak : ∀ v, atLabel labels.onBreak.id v ↔
      (entered && (doWhile body c labels).completes) = false) :
    Leaves atLabel entered ((doWhile body c labels).lower n).1
      (entered && (doWhile body c labels).completes) := by
  rw [lower_doWhile]
  refine ((((Covers.label (fun v => (onBody v).1) fun v => (onBody v).2).append inner).append
    (.label (fun v isAt => ?_) fun v => (onContinue v).2)).append
    (.jumpIf_unless fun v isAt => ?_)).append (.label (fun v isAt => ?_) fun v => (onBreak v).2)
  · have notReached := (onContinue v).1 isAt
    grind [AssignedUnless]
  · have notEntered := (onBody v).1 isAt
    grind
  · have notReached := (onBreak v).1 isAt
    grind [completes, AssignedUnless]

theorem forIn_leaves {w : Var} {range : Expr} {body : Stmt} {labels : LoopLabels}
    (unknown : w.constant = none)
    (inner : Leaves atLabel entered (body.lower (n + 3)).1 (entered && body.completes))
    (onBody : ∀ v, atLabel (n + 2) v ↔ entered = false)
    (onContinue : ∀ v, atLabel labels.onContinue.id v ↔ entered = false)
    (onTest : ∀ v, atLabel (n + 1) v ↔ entered = false)
    (onBreak : ∀ v, atLabel labels.onBreak.id v ↔ entered = false) :
    Leaves atLabel entered ((forIn w range body labels).lower n).1 entered := by
  have may := Expr.mayBe_of_unknown (Expr.unknown_of_compares unknown (upperBound w n))
  have bounds : Leaves atLabel entered
      ([declare w range.bounds.1] ++ [declare (upperBound w n) range.bounds.2]) entered :=
    (declare_leaves _ _).append (declare_leaves _ _)
  have step : Leaves atLabel entered (stepCode w (upperBound w n) labels) entered :=
    .stepCode onContinue (fun v => (onBreak v).1) (.inl trivial) (.inl trivial)
  have passes : Leaves atLabel entered
      ((body.lower (n + 3)).1 ++ stepCode w (upperBound w n) labels) entered :=
    (inner.weaken (fun _ => id) fun v notEntered => by grind [AssignedUnless]).append step
  rw [lower_forIn]
  refine bounds.append (.loopCode_unless ?_ onTest ?_ ?_ fun v => (onBreak v).2)
  · simpa [may] using onBody
  · simpa [may] using fun v => (onBreak v).1
  · simpa [may] using passes

end

mutual

/-- The flat code of a statement that is entered or not goes on behind it only if the statement
completes, and to labels of the loops around it only by its jumps. -/
theorem lower_leaves (s : Stmt) (n : Nat) {entered : Bool} {loops : List LoopLabels}
    (records : s.RecordsConstants) (within : s.JumpsWithin loops)
    (outer : LeavesBy atLabel loops fun l => entered && s.jumpsTo l)
    (agrees : ∀ m ∈ s.reachedLabels entered n, ∀ v, atLabel m.1 v ↔ m.2 = false) :
    Leaves atLabel entered (s.lower n).1 (entered && s.completes) := by
  cases s with
  | block body => exact lowerAll_leaves body n records within outer agrees
  | declare w e =>
    have code : Leaves atLabel entered ((declare w e).lower n).1 entered := declare_leaves w e
    simpa [completes] using code
  | ifThen c t =>
    obtain ⟨agreesT, atEnd⟩ := List.forall_mem_append.1 agrees
    have inner := lower_leaves t (n + 1) records within
      (outer.mono fun l none => by grind [jumpsTo]) agreesT
    exact ifThen_leaves inner (atEnd _ List.mem_cons_self)
  | ifElse c t e =>
    obtain ⟨agreesTE, atEnd⟩ := List.forall_mem_append.1 agrees
    obtain ⟨agreesTL, agreesE⟩ := List.forall_mem_append.1 agreesTE
    obtain ⟨agreesT, atElse⟩ := List.forall_mem_append.1 agreesTL
    have first := lower_leaves t (n + 2) records.1 within.1
      (outer.mono fun l none => by grind [jumpsTo]) agreesT
    have second := lower_leaves e (t.lower (n + 2)).2 records.2 within.2
      (outer.mono fun l none => by grind [jumpsTo]) agreesE
    exact ifElse_leaves first second (atElse _ List.mem_cons_self) (atEnd _ List.mem_cons_self)
  | whileDo c body labels =>
    obtain ⟨onBody, agreesRest⟩ := List.forall_mem_cons.1 agrees
    obtain ⟨agreesB, agreesL⟩ := List.forall_mem_append.1 agreesRest
    obtain ⟨onContinue, onBreak⟩ := List.forall_mem_cons.1 agreesL
    have onBreak := onBreak _ List.mem_cons_self
    have inner := lower_leaves body (n + 1) records within (outer.enterWhile onContinue onBreak) agreesB
    exact whileDo_leaves inner onBody onContinue onBreak
  | doWhile body c labels =>
    obtain ⟨onBody, agreesRest⟩ := List.forall_mem_cons.1 agrees
    obtain ⟨agreesB, agreesL⟩ := List.forall_mem_append.1 agreesRest
    obtain ⟨onContinue, onBreak⟩ := List.forall_mem_cons.1 agreesL
    have onBreak := onBreak _ List.mem_cons_self
    have inner := lower_leaves body (n + 1) records within (outer.enterDo onContinue onBreak) agreesB
    exact doWhile_leaves inner onBody onContinue onBreak
  | forIn w range body labels =>
    obtain ⟨onBody, agreesRest⟩ := List.forall_mem_cons.1 agrees
    obtain ⟨agreesB, agreesL⟩ := List.forall_mem_append.1 agreesRest
    obtain ⟨onContinue, agreesL⟩ := List.forall_mem_cons.1 agreesL
    obtain ⟨onTest, onBreak⟩ := List.forall_mem_cons.1 agreesL
    have onBreak := onBreak _ List.mem_cons_self
    have inner := lower_leaves body (n + 3) records.2 within (outer.enterFor onContinue onBreak) agreesB
    simpa [completes] using forIn_leaves records.1 inner onBody onContinue onTest onBreak
  | goto l =>
    obtain ⟨k, member, isLabel⟩ := within
    refine .goto fun v isAt => ?_
    rcases isLabel with rfl | rfl
    · simpa [jumpsTo, AssignedUnless] using (outer k member v).1 isAt
    · simpa [jumpsTo, AssignedUnless] using (outer k member v).2 isAt
  | label | gotoIf => exact within.elim
  | ret value => exact .ret fun _ _ => .inl trivial
  | expr e =>
    refine (Covers.expr fun _ _ => .inl trivial).weaken (fun _ => id) fun v isM => ?_
    simpa [AssignedUnless, completes] using isM

theorem lowerAll_leaves (ss : List Stmt) (n : Nat) {entered : Bool} {loops : List LoopLabels}
    (records : AllRecordConstants ss) (within : AllJumpWithin loops ss)
    (outer : LeavesBy atLabel loops fun l => entered && anyJumpsTo ss l)
    (agrees : ∀ m ∈ reachedLabelsOf entered ss n, ∀ v, atLabel m.1 v ↔ m.2 = false) :
    Covers atLabel (fun _ => True) (AssignedUnless entered) (lowerAll ss n).1
      (AssignedUnless (entered && allComplete ss)) := by
  cases ss with
  | nil => exact .nil fun v isM => by simpa [AssignedUnless, allComplete] using isM
  | cons s ss =>
    obtain ⟨agreesS, agreesSs⟩ := List.forall_mem_append.1 agrees
    have first := lower_leaves s n records.1 within.1
      (outer.mono fun l none => by grind [anyJumpsTo]) agreesS
    have rest := lowerAll_leaves ss (s.lower n).2 records.2 within.2
      (outer.mono fun l none => by grind [anyJumpsTo]) agreesSs
    rw [lowerAll_cons]
    refine (first.append rest).weaken (fun _ => id) fun v isM => ?_
    grind [AssignedUnless, allComplete]

end

end

end Stmt

theorem assignedAt_behind {atLabel : Nat → Var → Prop} {code : List Stmt} {before : Var → Prop}
    {place : Nat} (behind : code.length ≤ place) :
    assignedAt atLabel before code place = assignsAll atLabel before code := by
  induction code generalizing before place with
  | nil => rfl
  | cons s code ih =>
    obtain ⟨place, rfl⟩ := Nat.exists_eq_add_one.2 (Nat.zero_lt_of_lt behind)
    exact ih (Nat.le_of_succ_le_succ behind)

namespace Body

theorem exists_undeclared (body : Body) : ∃ v : Var, ∀ e, .declare v e ∉ body := by
  let ids := (body.flatMap Stmt.vars).map Var.id
  let new : Var := { (default : Var) with id := ids.sum + 1 }
  refine ⟨new, fun e member => ?_⟩
  have isVar : new ∈ body.flatMap Stmt.vars :=
    List.mem_flatMap.2 ⟨_, member, by simp [Stmt.vars]⟩
  have le : ids.sum + 1 ≤ ids.sum := List.le_sum_of_mem (List.mem_map_of_mem isVar)
  omega

/-- Control never comes to a place where every variable counts as assigned, for no way makes one
assigned that the body does not declare. -/
theorem AssignedAt.not_reached {exempt : Var → Prop} {body : Body} {assigned : Nat → Var → Prop}
    (isAssigned : body.AssignedAt exempt [] assigned) {place : Nat} (all : ∀ v, assigned place v) :
    ¬body.Reached place := by
  intro reached
  obtain ⟨v, undeclared⟩ := body.exists_undeclared
  have never : ¬assigned place v := by
    clear all
    induction reached with
    | refl => exact fun atStart => List.not_mem_nil (isAssigned.start v atStart)
    | tail _ leads ih =>
      obtain ⟨s, get, leads⟩ := leads
      intro atTarget
      rcases isAssigned.leads _ _ s get leads v atTarget with here | ⟨e, rfl⟩
      · exact ih here
      · exact undeclared e (List.mem_of_getElem? get)
  exact never (all v)

end Body

/-- What the bodies of a bound unit have that are lowered from the number `n` on. -/
structure BoundShape (n : Nat) (body : Body) : Prop where
  records : Stmt.AllRecordConstants body
  jumps : Stmt.AllJumpWithin [] body
  below : ∀ l ∈ Stmt.ownLabelsOf body, l < n
  nodup : (Stmt.ownLabelsOf body).Nodup

namespace BoundShape

variable {n m : Nat} {body : Body} {returns : Ty}

theorem later (shape : BoundShape n body) (le : n ≤ m) : BoundShape m body :=
  { shape with below := fun l own => Nat.lt_of_lt_of_le (shape.below l own) le }

theorem definesOnce (shape : BoundShape n body) : (definitions (Stmt.lowerAll body n).1).Nodup :=
  (Stmt.lowerAll_definesOnce body n shape.below shape.nodup).nodup

/-- Control that can come behind the code can come behind the statements. -/
theorem completes_of_reached (shape : BoundShape n body) {place : Nat}
    (reached : Body.Reached (Stmt.lowerAll body n).1 place)
    (outside : (Stmt.lowerAll body n).1.length ≤ place) : Stmt.allComplete body = true := by
  by_contra incomplete
  have marksOnce : ((Stmt.reachedLabelsOf true body n).map Prod.fst).Nodup := by
    rw [Stmt.reachedLabelsOf_keys]
    exact shape.definesOnce
  let atLabel (id : Nat) (_ : Var) : Prop :=
    ∀ m ∈ Stmt.reachedLabelsOf true body n, m.1 = id → m.2 = false
  have agrees : ∀ m ∈ Stmt.reachedLabelsOf true body n, ∀ v, atLabel m.1 v ↔ m.2 = false :=
    fun m member _ => forall_marks_iff marksOnce member (P := (· = false))
  have covers := Stmt.lowerAll_leaves body n shape.records shape.jumps (List.forall_mem_nil _) agrees
  obtain ⟨follow, behind⟩ := covers (· ∈ []) fun v notEntered => by cases notEntered
  refine (Body.AssignedAt.of_follow follow).not_reached (fun v => ?_) reached
  rw [assignedAt_behind outside]
  exact behind v (by simpa [AssignedUnless] using incomplete)

/-- Control can leave the flat body of a function that gives a value just if it can come behind the
statements of the body. -/
theorem canLeave_iff (shape : BoundShape n body) (givesValue : returns ≠ .void) :
    (body.lower returns n).1.CanLeave ↔ Stmt.allComplete body = true := by
  have targets := Body.lower_targets shape.jumps returns n
  have code : (body.lower returns n).1 = (Stmt.lowerAll body n).1 :=
    if_neg fun closes => givesValue closes.1
  rw [code] at targets ⊢
  constructor
  · rintro ⟨place, reached, leaves⟩
    rcases leaves with outside | ⟨s, get, l, target, missing⟩
    · exact shape.completes_of_reached reached (List.getElem?_eq_none_iff.1 outside)
    · exact absurd (targets s (List.mem_of_getElem? get) l target)
        (Body.not_mem_definitions_of_missing missing)
  · intro completes
    have stands : CodeAt (Stmt.lowerAll body n).1 0 (Stmt.lowerAll body n).1 :=
      ⟨[], [], by simp, rfl⟩
    have way := (Stmt.lowerAll_way shape.definesOnce body n shape.records stands).1 completes
    exact ⟨_, way, .inl (by simp)⟩

/-- The check for a `return` on every way says whether the statements of the body can complete. -/
theorem allPathsReturn (shape : BoundShape n body) (givesValue : returns ≠ .void) :
    (body.lower returns n).1.allPathsReturn = !Stmt.allComplete body := by
  rw [Bool.eq_iff_iff, Body.allPathsReturn_iff, shape.canLeave_iff givesValue, Bool.not_eq_true,
    Bool.not_eq_true']

end BoundShape

end ScriptLang
