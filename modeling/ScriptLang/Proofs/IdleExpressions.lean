import ScriptLang.Proofs.FoldedFaults

/-! An expression that neither assigns nor calls ends in the state it starts from, with a value or
with a fault. An expression with a constant does so too when it is evaluated without the constant:
what assigns or calls in it stands behind an operand that has decided already. -/

namespace ScriptLang

/-- From the state on, the computation comes to a value or a fault and leaves the state as it is. -/
def Idles {α : Type} (x : Run α) (s : State) : Prop :=
  (∃ a, x s = .ok a s) ∨ ∃ f, x s = .error (.fault f) s

namespace Idles

variable {α β : Type} {s : State}

theorem pure (a : α) : Idles (Pure.pure a) s := .inl ⟨a, rfl⟩

theorem fault (f : Fault) : Idles (Run.fault f : Run α) s := .inr ⟨f, rfl⟩

theorem ofExcept (result : Except OperatorFault α) : Idles (Run.ofExcept result) s := by
  cases result with
  | ok a => exact pure a
  | error e => exact fault e.toFault

theorem read (v : Var) : Idles (Run.read v) s := by
  unfold Idles
  rw [Run.read_apply]
  cases s.read? v with
  | some value => exact .inl ⟨value, rfl⟩
  | none => exact .inr ⟨_, rfl⟩

theorem bind {x : Run α} {f : α → Run β} (first : Idles x s)
    (second : ∀ a, x s = .ok a s → Idles (f a) s) : Idles (x >>= f) s := by
  unfold Idles
  rcases first with ⟨a, given⟩ | ⟨fault, given⟩
  · rw [Run.bind_of_ok f given]
    exact second a given
  · rw [Run.bind_of_error f given]
    exact .inr ⟨fault, rfl⟩

end Idles

namespace Expr

variable {invoke : Invoke} {s : State}

theorem eval_idles {e : Expr} (idle : e.hasSideEffects = false) : Idles (e.eval invoke) s := by
  cases e with
  | error | range => exact .fault _
  | assign | call => contradiction
  | literal value => exact .pure value
  | var v =>
    simp only [eval]
    cases v.constant with
    | some value => exact .pure value
    | none => exact .read v
  | unary op e =>
    simp only [eval]
    cases (unary op e).constant? with
    | some value => exact .pure value
    | none => exact .bind (eval_idles (e := e) idle) fun value _ => .ofExcept _
  | convert target e =>
    simp only [eval]
    cases (convert target e).constant? with
    | some value => exact .pure value
    | none => exact .bind (eval_idles (e := e) idle) fun value _ => .ofExcept _
  | binary l op r =>
    obtain ⟨idleL, idleR⟩ := Bool.or_eq_false_iff.1 idle
    simp only [eval]
    cases (binary l op r).constant? with
    | some value => exact .pure value
    | none =>
      refine .bind (eval_idles idleL) fun left _ => ?_
      cases op.action.shortCircuit? left with
      | some b => exact .pure _
      | none => exact .bind (eval_idles idleR) fun right _ => .ofExcept _

theorem evalUnfolded_idles {e : Expr} (idle : e.hasSideEffects = false) :
    Idles (e.evalUnfolded invoke) s := by
  cases e with
  | error | range => exact .fault _
  | assign | call => contradiction
  | literal value => exact .pure value
  | var v => exact .read v
  | unary op e => exact .bind (evalUnfolded_idles (e := e) idle) fun value _ => .ofExcept _
  | convert target e => exact .bind (evalUnfolded_idles (e := e) idle) fun value _ => .ofExcept _
  | binary l op r =>
    obtain ⟨idleL, idleR⟩ := Bool.or_eq_false_iff.1 idle
    refine .bind (evalUnfolded_idles idleL) fun left _ => ?_
    cases op.action.shortCircuit? left with
    | some b => exact .pure _
    | none => exact .bind (evalUnfolded_idles idleR) fun right _ => .ofExcept _

/-- By induction on the expression. Of a binary operation, only the operands that its constant comes
from are known to idle, so the cases are the reasons for which it has one. -/
theorem evalUnfolded_idles_of_constant {e : Expr} {c : Value} (known : e.constant? = some c)
    (shows : s.ShowsConstants e.vars) : Idles (e.evalUnfolded invoke) s := by
  cases e with
  | error | assign | range | call => contradiction
  | literal value => exact .pure value
  | var v => exact .read v
  | unary op e =>
    obtain ⟨inner, knownInner, _⟩ := Option.bind_eq_some_iff.1 known
    exact .bind (evalUnfolded_idles_of_constant knownInner shows) fun value _ => .ofExcept _
  | convert target e =>
    obtain ⟨inner, knownInner, _⟩ := Option.bind_eq_some_iff.1 known
    exact .bind (evalUnfolded_idles_of_constant knownInner shows) fun value _ => .ofExcept _
  | binary l op r =>
    obtain ⟨showsL, showsR⟩ := State.ShowsConstants.append shows
    cases folds_of_constant known with
    | left decisive knownLeft =>
      refine .bind (evalUnfolded_idles_of_constant knownLeft showsL) fun left given => ?_
      obtain ⟨rfl, _⟩ := evalUnfolded_of_constant knownLeft showsL given
      rw [BinaryAction.shortCircuit?_eq_some.2 ⟨decisive, rfl⟩]
      exact .pure _
    | right _ knownRight idle =>
      refine .bind (evalUnfolded_idles idle) fun left _ => ?_
      cases op.action.shortCircuit? left with
      | some b => exact .pure _
      | none =>
        exact .bind (evalUnfolded_idles_of_constant knownRight showsR) fun right _ => .ofExcept _
    | both knownLeft knownRight undecided _ =>
      refine .bind (evalUnfolded_idles_of_constant knownLeft showsL) fun left given => ?_
      obtain ⟨rfl, _⟩ := evalUnfolded_of_constant knownLeft showsL given
      rw [undecided]
      exact .bind (evalUnfolded_idles_of_constant knownRight showsR) fun right _ => .ofExcept _

/-- An expression without side effects comes to a value or a fault in every state, with its
constants or without them, and leaves the state as it is: globals, all frames and host. So does an
expression with a constant that is evaluated without constants, where the state shows the constants
of its variables, even if it has side effects. -/
theorem evaluation_idles (e : Expr) (invoke : Invoke) (s : State) :
    (e.hasSideEffects = false → Idles (e.eval invoke) s ∧ Idles (e.evalUnfolded invoke) s) ∧
      (e.constant?.isSome = true → s.ShowsConstants e.vars → Idles (e.evalUnfolded invoke) s) := by
  refine ⟨fun idle => ⟨eval_idles idle, evalUnfolded_idles idle⟩, fun isKnown shows => ?_⟩
  obtain ⟨c, known⟩ := Option.isSome_iff_exists.1 isKnown
  exact evalUnfolded_idles_of_constant known shows

end Expr

namespace IdleExpressions

open FoldedFaults (falseAnyway tick)

def decidedTick : Expr :=
  .binary falseAnyway (.combine .bool .ampersandAmpersand .logicalAnd)
    (.binary (.call tick []) .intEquals (.literal (.int 1)))

def noisy : Invoke := fun _ _ => do
  modify fun s => { s with host := s.host.print "tick" }
  return some (.int 1)

end IdleExpressions

/-- The call in `1 / 0 == 1 && false && tick() == 1` is never made. With the constant there is no
fault; without it the division fails, and that is all. -/
theorem decidedTick_idles :
    IdleExpressions.decidedTick.hasSideEffects = true ∧
      IdleExpressions.decidedTick.constant? = some (.bool false) ∧
      Idles (IdleExpressions.decidedTick.evalUnfolded IdleExpressions.noisy) FoldedFaults.state ∧
      FoldedFaults.falseAnyway.hasSideEffects = false ∧
      Idles (FoldedFaults.falseAnyway.eval IdleExpressions.noisy) FoldedFaults.state ∧
      FoldedFaults.falseAnyway.evalUnfolded IdleExpressions.noisy FoldedFaults.state =
        .error (.fault .divisionByZero) FoldedFaults.state := by
  have known : IdleExpressions.decidedTick.constant? = some (.bool false) := rfl
  have decided := (Expr.evaluation_idles IdleExpressions.decidedTick IdleExpressions.noisy
    FoldedFaults.state).2 (by rw [known]; rfl) (List.forall_mem_nil _)
  have plain := (Expr.evaluation_idles FoldedFaults.falseAnyway IdleExpressions.noisy
    FoldedFaults.state).1 rfl
  exact ⟨rfl, known, decided, rfl, plain.1, rfl⟩

end ScriptLang
