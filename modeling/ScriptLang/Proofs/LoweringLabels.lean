import ScriptLang.Lowering
import ScriptLang.Proofs.Code
import ScriptLang.Proofs.Mentions

/-! Flat code defines the labels that the statement brings along and new ones, each of them
once. New numbers are taken in a row, so a range of numbers belongs to each statement. -/

namespace ScriptLang

@[simp] theorem definitions_jumpIf (l : Label) (c : Expr) (value : Bool) :
    definitions (jumpIf l c value) = [] := by
  unfold jumpIf
  split
  · split <;> rfl
  · rfl

@[simp] theorem definitions_loopCode (l : Label) (labels : LoopLabels) (c : Expr)
    (code : List Stmt) :
    definitions (loopCode l labels c code) =
      l.id :: (definitions code ++ [labels.onContinue.id, labels.onBreak.id]) := by
  simp [loopCode]

@[simp] theorem definitions_stepCode (v upper : Var) (labels : LoopLabels) :
    definitions (stepCode v upper labels) = [labels.onContinue.id] := by
  simp [stepCode]

namespace Stmt

theorem lower_ifThen (c : Expr) (t : Stmt) (n : Nat) :
    (ifThen c t).lower n =
      (jumpIf ⟨n, "end"⟩ c false ++ (t.lower (n + 1)).1 ++ [label ⟨n, "end"⟩],
        (t.lower (n + 1)).2) := rfl

theorem lower_ifElse (c : Expr) (t e : Stmt) (n : Nat) :
    (ifElse c t e).lower n =
      (jumpIf ⟨n + 1, "else"⟩ c false ++ (t.lower (n + 2)).1 ++
          [goto ⟨n, "end"⟩, label ⟨n + 1, "else"⟩] ++ (e.lower (t.lower (n + 2)).2).1 ++
          [label ⟨n, "end"⟩],
        (e.lower (t.lower (n + 2)).2).2) := rfl

theorem lower_whileDo (c : Expr) (body : Stmt) (labels : LoopLabels) (n : Nat) :
    (whileDo c body labels).lower n =
      (loopCode ⟨n, "body"⟩ labels c (body.lower (n + 1)).1, (body.lower (n + 1)).2) := rfl

theorem lower_doWhile (body : Stmt) (c : Expr) (labels : LoopLabels) (n : Nat) :
    (doWhile body c labels).lower n =
      ([label ⟨n, "body"⟩] ++ (body.lower (n + 1)).1 ++ [label labels.onContinue] ++
          jumpIf ⟨n, "body"⟩ c true ++ [label labels.onBreak],
        (body.lower (n + 1)).2) := rfl

/-- The hidden variable with the number `n` for the upper bound of a loop over `v`. -/
def upperBound (v : Var) (n : Nat) : Var :=
  { id := n, name := upperBoundName, ty := .int
    kind := if v.isGlobal then .globalVar else .localVar
    access := .readOnly none }

theorem lower_forIn (v : Var) (range : Expr) (body : Stmt) (labels : LoopLabels) (n : Nat) :
    (forIn v range body labels).lower n =
      ([declare v range.bounds.1, declare (upperBound v n) range.bounds.2] ++
          loopCode ⟨n + 2, "body"⟩ ⟨labels.onBreak, ⟨n + 1, "continue"⟩⟩
            (.binary (.var v) .intLessOrEquals (.var (upperBound v n)))
            ((body.lower (n + 3)).1 ++ stepCode v (upperBound v n) labels),
        (body.lower (n + 3)).2) := rfl

theorem lowerAll_cons (s : Stmt) (ss : List Stmt) (n : Nat) :
    lowerAll (s :: ss) n =
      ((s.lower n).1 ++ (lowerAll ss (s.lower n).2).1, (lowerAll ss (s.lower n).2).2) := rfl

mutual

theorem le_lower (s : Stmt) (n : Nat) : n ≤ (s.lower n).2 := by
  cases s with
  | block body => exact le_lowerAll body n
  | ifThen c t =>
    rw [lower_ifThen]
    exact Nat.le_of_succ_le (le_lower t (n + 1))
  | ifElse c t e =>
    rw [lower_ifElse]
    have first := le_lower t (n + 2)
    have second := le_lower e (t.lower (n + 2)).2
    dsimp only
    omega
  | whileDo c body labels =>
    rw [lower_whileDo]
    exact Nat.le_of_succ_le (le_lower body (n + 1))
  | doWhile body c labels =>
    rw [lower_doWhile]
    exact Nat.le_of_succ_le (le_lower body (n + 1))
  | forIn v range body labels =>
    rw [lower_forIn]
    have inner := le_lower body (n + 3)
    dsimp only
    omega
  | _ => exact Nat.le_refl n

theorem le_lowerAll (ss : List Stmt) (n : Nat) : n ≤ (lowerAll ss n).2 := by
  cases ss with
  | nil => exact Nat.le_refl n
  | cons s ss =>
    rw [lowerAll_cons]
    exact Nat.le_trans (le_lower s n) (le_lowerAll ss (s.lower n).2)

end

end Stmt

/-- The code defines each label once, and only labels that are allowed. -/
structure DefinesOnce (allowed : Nat → Prop) (code : List Stmt) : Prop where
  nodup : (definitions code).Nodup
  within : ∀ id ∈ definitions code, allowed id

def OwnOrNew (own : List Nat) (n stop id : Nat) : Prop := id ∈ own ∨ (n ≤ id ∧ id < stop)

namespace Stmt

mutual

theorem lower_definesOnce (s : Stmt) (n : Nat) (below : ∀ l ∈ s.ownLabels, l < n)
    (nodup : s.ownLabels.Nodup) :
    DefinesOnce (OwnOrNew s.ownLabels n (s.lower n).2) (s.lower n).1 := by
  cases s with
  | block body => exact lowerAll_definesOnce body n below nodup
  | ifThen c t =>
    obtain ⟨once, within⟩ := lower_definesOnce t (n + 1) (by grind [ownLabels]) nodup
    have le := le_lower t (n + 1)
    rw [lower_ifThen]
    constructor <;> simp [OwnOrNew, ownLabels] at * <;> grind
  | ifElse c t e =>
    simp only [ownLabels, List.forall_mem_append, List.nodup_append] at below nodup
    obtain ⟨once, within⟩ := lower_definesOnce t (n + 2) (by grind) nodup.1
    have le := le_lower t (n + 2)
    obtain ⟨once', within'⟩ := lower_definesOnce e (t.lower (n + 2)).2 (by grind) nodup.2.1
    have le' := le_lower e (t.lower (n + 2)).2
    rw [lower_ifElse]
    constructor <;> simp [OwnOrNew, ownLabels] at * <;> grind
  | whileDo c body labels =>
    simp only [ownLabels, List.forall_mem_cons, List.nodup_cons] at below nodup
    obtain ⟨once, within⟩ := lower_definesOnce body (n + 1) (by grind) nodup.2.2
    have le := le_lower body (n + 1)
    rw [lower_whileDo]
    constructor <;> simp [OwnOrNew, ownLabels] at * <;> grind
  | doWhile body c labels =>
    simp only [ownLabels, List.forall_mem_cons, List.nodup_cons] at below nodup
    obtain ⟨once, within⟩ := lower_definesOnce body (n + 1) (by grind) nodup.2.2
    have le := le_lower body (n + 1)
    rw [lower_doWhile]
    constructor <;> simp [OwnOrNew, ownLabels] at * <;> grind
  | forIn v range body labels =>
    simp only [ownLabels, List.forall_mem_cons, List.nodup_cons] at below nodup
    obtain ⟨once, within⟩ := lower_definesOnce body (n + 3) (by grind) nodup.2.2
    have le := le_lower body (n + 3)
    rw [lower_forIn]
    constructor <;> simp [OwnOrNew, ownLabels] at * <;> grind
  | label l => exact ⟨List.nodup_cons.2 ⟨List.not_mem_nil, List.nodup_nil⟩, fun id member => .inl member⟩
  | gotoIf l c value =>
    have none : definitions ((gotoIf l c value).lower n).1 = [] := definitions_jumpIf l c value
    exact ⟨by simp [none], by simp [none]⟩
  | declare _ _ | goto _ | ret _ | expr _ =>
    exact ⟨List.nodup_nil, fun id member => absurd member List.not_mem_nil⟩

theorem lowerAll_definesOnce (ss : List Stmt) (n : Nat) (below : ∀ l ∈ ownLabelsOf ss, l < n)
    (nodup : (ownLabelsOf ss).Nodup) :
    DefinesOnce (OwnOrNew (ownLabelsOf ss) n (lowerAll ss n).2) (lowerAll ss n).1 := by
  cases ss with
  | nil => exact ⟨List.nodup_nil, fun id member => absurd member List.not_mem_nil⟩
  | cons s ss =>
    simp only [ownLabelsOf, List.forall_mem_append, List.nodup_append] at below nodup
    obtain ⟨once, within⟩ := lower_definesOnce s n below.1 nodup.1
    have le := le_lower s n
    obtain ⟨once', within'⟩ := lowerAll_definesOnce ss (s.lower n).2 (by grind) nodup.2.1
    have le' := le_lowerAll ss (s.lower n).2
    rw [lowerAll_cons]
    constructor <;> simp [OwnOrNew, ownLabelsOf] at * <;> grind

end

end Stmt

theorem Body.definitions_close (returns : Ty) (code : Body) :
    definitions (close returns code) = definitions code := by
  unfold close
  split <;> simp

theorem Body.le_lower (returns : Ty) (body : Body) (k : Nat) : k ≤ (body.lower returns k).2 :=
  Stmt.le_lowerAll body k

end ScriptLang
