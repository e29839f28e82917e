import ScriptLang.Proofs.LoweringLabels
import ScriptLang.Proofs.Structured

/-! The code of a statement consists of labels and jumps, of tests of its conditions, of the statements
that are taken over as they are, and of what makes a loop over a range count. A property that all of
these have is one of the whole code, wherever the pieces stand in it. -/

namespace ScriptLang

namespace Expr

theorem forall_mem_vars_bounds {P : Var → Prop} {range : Expr} (vars : ∀ v ∈ range.vars, P v) :
    (∀ v ∈ range.bounds.1.vars, P v) ∧ ∀ v ∈ range.bounds.2.vars, P v := by
  cases range with
  | range lower upper => exact List.forall_mem_append.1 vars
  | _ => exact ⟨List.forall_mem_nil _, List.forall_mem_nil _⟩

theorem forall_mem_calls_bounds {P : Fn → Prop} {range : Expr} (calls : ∀ f ∈ range.calls, P f) :
    (∀ f ∈ range.bounds.1.calls, P f) ∧ ∀ f ∈ range.bounds.2.calls, P f := by
  cases range with
  | range lower upper => exact List.forall_mem_append.1 calls
  | _ => exact ⟨List.forall_mem_nil _, List.forall_mem_nil _⟩

end Expr

section

variable {P : Stmt → Prop} {l : Label} {c : Expr} {code : List Stmt}

/-- The property holds where nothing but the flow of control is concerned. -/
structure OfJumps (P : Stmt → Prop) : Prop where
  label : ∀ l, P (.label l)
  goto : ∀ l, P (.goto l)

/-- The property holds of all tests of a condition. -/
def OfTests (P : Stmt → Prop) (c : Expr) : Prop := ∀ l value, P (.gotoIf l c value)

theorem forall_mem_jumpIf (jumps : OfJumps P) (tests : OfTests P c) (value : Bool) :
    ∀ s ∈ jumpIf l c value, P s := by
  unfold jumpIf
  split
  · split
    · exact List.forall_mem_singleton.2 (jumps.goto l)
    · exact List.forall_mem_nil _
  · exact List.forall_mem_singleton.2 (tests l value)

theorem forall_mem_loopCode {labels : LoopLabels} (jumps : OfJumps P) (tests : OfTests P c)
    (inner : ∀ s ∈ code, P s) : ∀ s ∈ loopCode l labels c code, P s := by
  have label (k : Label) : ∀ s ∈ [Stmt.label k], P s := List.forall_mem_singleton.2 (jumps.label k)
  have enter : ∀ s ∈ [Stmt.goto labels.onContinue, .label l], P s :=
    List.forall_mem_cons.2 ⟨jumps.goto _, label l⟩
  simp only [loopCode, List.forall_mem_append]
  exact ⟨⟨⟨⟨enter, inner⟩, label _⟩, forall_mem_jumpIf jumps tests true⟩, label _⟩

end

/-- What a loop over a range emits besides its body, where `upper` is the hidden variable for its
upper bound. -/
structure OfCounting (P : Stmt → Prop) (v upper : Var) (range : Expr) : Prop where
  lowerBound : P (.declare v range.bounds.1)
  upperBound : P (.declare upper range.bounds.2)
  enters : OfTests P (.binary (.var v) .intLessOrEquals (.var upper))
  ends : OfTests P (.binary (.var v) .intEquals (.var upper))
  step : P (.expr (Expr.increment v))

theorem forall_mem_stepCode {P : Stmt → Prop} {v upper : Var} {range : Expr} {labels : LoopLabels}
    (jumps : OfJumps P) (counts : OfCounting P v upper range) :
    ∀ s ∈ stepCode v upper labels, P s := by
  have enter := List.forall_mem_singleton.2 (jumps.label labels.onContinue)
  have step := List.forall_mem_singleton.2 counts.step
  exact List.forall_mem_append.2
    ⟨List.forall_mem_append.2 ⟨enter, forall_mem_jumpIf jumps counts.ends true⟩, step⟩

theorem forall_mem_countingCode {P : Stmt → Prop} {v upper : Var} {range : Expr} {l : Label}
    {labels labels' : LoopLabels} {code : List Stmt} (jumps : OfJumps P)
    (counts : OfCounting P v upper range) (inner : ∀ s ∈ code, P s) :
    ∀ s ∈ [.declare v range.bounds.1, .declare upper range.bounds.2] ++
        loopCode l labels (.binary (.var v) .intLessOrEquals (.var upper))
          (code ++ stepCode v upper labels'), P s := by
  have bounds := List.forall_mem_cons.2
    ⟨counts.lowerBound, List.forall_mem_singleton.2 counts.upperBound⟩
  have pass : ∀ s ∈ code ++ stepCode v upper labels', P s :=
    List.forall_mem_append.2 ⟨inner, forall_mem_stepCode jumps counts⟩
  exact List.forall_mem_append.2 ⟨bounds, forall_mem_loopCode jumps counts.enters pass⟩

namespace Stmt

mutual

/-- What lowering makes of the statement with numbers from `low` on has the property, but for labels
and plain jumps. -/
def EmitsOnly (P : Stmt → Prop) (low : Nat) : Stmt → Prop
  | block body => AllEmitOnly P low body
  | ifThen c t => OfTests P c ∧ t.EmitsOnly P low
  | ifElse c t e => OfTests P c ∧ t.EmitsOnly P low ∧ e.EmitsOnly P low
  | whileDo c body _ | doWhile body c _ => OfTests P c ∧ body.EmitsOnly P low
  | forIn v range body _ =>
    (∀ n, low ≤ n → OfCounting P v (upperBound v n) range) ∧ body.EmitsOnly P low
  | gotoIf _ c _ => OfTests P c
  | label _ | goto _ => True
  | declare v e => P (declare v e)
  | ret e => P (ret e)
  | expr e => P (expr e)

def AllEmitOnly (P : Stmt → Prop) (low : Nat) : List Stmt → Prop
  | [] => True
  | s :: ss => s.EmitsOnly P low ∧ AllEmitOnly P low ss

end

variable {P : Stmt → Prop} {low : Nat}

mutual

theorem forall_mem_lower (jumps : OfJumps P) (s : Stmt) (n : Nat) (le : low ≤ n)
    (emits : s.EmitsOnly P low) : ∀ t ∈ (s.lower n).1, P t := by
  have label (l : Label) : ∀ t ∈ [label l], P t := List.forall_mem_singleton.2 (jumps.label l)
  cases s with
  | block body => exact forall_mem_lowerAll jumps body n le emits
  | ifThen c t =>
    have inner := forall_mem_lower jumps t (n + 1) (by omega) emits.2
    rw [lower_ifThen]
    simp only [List.forall_mem_append]
    exact ⟨⟨forall_mem_jumpIf jumps emits.1 false, inner⟩, label _⟩
  | ifElse c t e =>
    have le' := le_lower t (n + 2)
    have first := forall_mem_lower jumps t (n + 2) (by omega) emits.2.1
    have second := forall_mem_lower jumps e (t.lower (n + 2)).2 (by omega) emits.2.2
    have between : ∀ s ∈ [goto ⟨n, "end"⟩, .label ⟨n + 1, "else"⟩], P s :=
      List.forall_mem_cons.2 ⟨jumps.goto _, label _⟩
    rw [lower_ifElse]
    simp only [List.forall_mem_append]
    exact ⟨⟨⟨⟨forall_mem_jumpIf jumps emits.1 false, first⟩, between⟩, second⟩, label _⟩
  | whileDo c body labels =>
    exact forall_mem_loopCode jumps emits.1
      (forall_mem_lower jumps body (n + 1) (by omega) emits.2)
  | doWhile body c labels =>
    have inner := forall_mem_lower jumps body (n + 1) (by omega) emits.2
    rw [lower_doWhile]
    simp only [List.forall_mem_append]
    exact ⟨⟨⟨⟨label _, inner⟩, label _⟩, forall_mem_jumpIf jumps emits.1 true⟩, label _⟩
  | forIn v range body labels =>
    exact forall_mem_countingCode jumps (emits.1 n le)
      (forall_mem_lower jumps body (n + 3) (by omega) emits.2)
  | gotoIf l c value => exact forall_mem_jumpIf jumps emits value
  | label l => exact label l
  | goto l => exact List.forall_mem_singleton.2 (jumps.goto l)
  | declare _ _ | ret _ | expr _ => exact List.forall_mem_singleton.2 emits

theorem forall_mem_lowerAll (jumps : OfJumps P) (ss : List Stmt) (n : Nat) (le : low ≤ n)
    (emits : AllEmitOnly P low ss) : ∀ t ∈ (lowerAll ss n).1, P t := by
  cases ss with
  | nil => exact List.forall_mem_nil _
  | cons s ss =>
    rw [lowerAll_cons]
    exact List.forall_mem_append.2 ⟨forall_mem_lower jumps s n le emits.1,
      forall_mem_lowerAll jumps ss _ (Nat.le_trans le (le_lower s n)) emits.2⟩

end

end Stmt

/-- Closing a body adds nothing but a `return`. -/
theorem Body.forall_mem_close {P : Stmt → Prop} {code : Body} (inner : ∀ s ∈ code, P s)
    (closes : P (.ret none)) (returns : Ty) : ∀ s ∈ code.close returns, P s := by
  unfold Body.close
  split
  · exact List.forall_mem_append.2 ⟨inner, List.forall_mem_singleton.2 closes⟩
  · exact inner

theorem Body.forall_mem_lower {P : Stmt → Prop} (jumps : OfJumps P) (closes : P (.ret none))
    (body : Body) (returns : Ty) (n : Nat) (emits : Stmt.AllEmitOnly P n body) :
    ∀ s ∈ (body.lower returns n).1, P s :=
  forall_mem_close (Stmt.forall_mem_lowerAll jumps body n (Nat.le_refl n) emits) closes returns

end ScriptLang
