import ScriptLang.Proofs.Fuel
import ScriptLang.Proofs.Mentions

/-! Evaluating an expression writes variables, calls functions and talks to the host. A fact
about states that none of these destroys still holds behind the expression, whether it has a
value or stops. -/

namespace ScriptLang

/-- Where the fact holds, it still does behind the computation. -/
def Maintains {α : Type} (I : State → Prop) (x : Run α) : Prop :=
  ∀ s, I s → I (Answer.state (x s))

namespace Maintains

variable {α β : Type} {I : State → Prop}

theorem of_ok {x : Run α} (maintains : Maintains I x) {s t : State} (holds : I s) {a : α}
    (given : x s = .ok a t) : I t := by
  have behind := maintains s holds
  rw [given] at behind
  exact behind

theorem pure (a : α) : Maintains I (Pure.pure a) := fun _ holds => holds

theorem fault (f : Fault) : Maintains I (Run.fault f : Run α) := fun _ holds => holds

theorem ofExcept (result : Except OperatorFault α) : Maintains I (Run.ofExcept result) := by
  cases result with
  | ok a => exact pure a
  | error e => exact fault e.toFault

theorem bind {x : Run α} {f : α → Run β} (first : Maintains I x)
    (second : ∀ a, Maintains I (f a)) : Maintains I (x >>= f) := by
  intro s holds
  have behind := first s holds
  cases given : x s with
  | ok a t =>
    rw [given] at behind
    rw [Run.bind_of_ok f given]
    exact second a t behind
  | error stop t =>
    rw [given] at behind
    rw [Run.bind_of_error f given]
    exact behind

theorem get_bind {f : State → Run β} (second : ∀ s, Maintains I (f s)) :
    Maintains I (get >>= f) := by
  intro s holds
  rw [Run.bind_of_ok f (Run.get_apply s)]
  exact second s s holds

theorem modify {f : State → State} (keeps : ∀ s, I s → I (f s)) :
    Maintains I (modify f : Run PUnit) := keeps

theorem read (v : Var) : Maintains I (Run.read v) := by
  intro s holds
  rw [Run.read_apply]
  cases s.read? v <;> exact holds

/-- A frame comes and goes around the computation, which maintains another fact inside. -/
theorem inFrame {inside : State → Prop} {x : Run α} {frame : Store}
    (maintains : Maintains inside x)
    (push : ∀ s, I s → inside { s with frames := frame :: s.frames })
    (pop : ∀ s, inside s → I { s with frames := s.frames.tail }) :
    Maintains I (Run.inFrame frame x) := by
  intro s holds
  have behind := maintains _ (push s holds)
  rw [Run.inFrame_apply]
  cases given : x { s with frames := frame :: s.frames } with
  | ok a t =>
    rw [given] at behind
    exact pop t behind
  | error stop t =>
    rw [given] at behind
    exact pop t behind

end Maintains

/-- What a builtin leaves is the state it starts from, but for the host. -/
theorem Builtin.run_maintains {I : State → Prop}
    (host : ∀ s host, I s → I { s with host := host }) (b : Builtin) (args : List Value) :
    Maintains I (b.run args) := by
  unfold Builtin.run
  split
  · exact .bind (.modify fun s => host s _) fun _ => .pure none
  · refine .get_bind fun s => ?_
    split
    · exact .bind (.modify fun s => host s _) fun _ => .pure _
    · exact .fault _
  · exact .get_bind fun s => .bind (.modify fun s => host s _) fun _ => .pure _
  · exact .fault _

section

variable {I : State → Prop} {invoke : Invoke}

namespace Expr

mutual

theorem eval_maintains {e : Expr}
    (writes : ∀ v ∈ e.assigned, ∀ value, Maintains I (Run.write v value))
    (calls : ∀ f ∈ e.calls, ∀ args, Maintains I (f.apply invoke args)) :
    Maintains I (e.eval invoke) := by
  cases e with
  | error | range => exact .fault _
  | literal value => exact .pure value
  | var v =>
    simp only [eval]
    cases v.constant with
    | some value => exact .pure value
    | none => exact .read v
  | assign v e =>
    obtain ⟨write, writes⟩ := List.forall_mem_cons.1 writes
    exact .bind (eval_maintains writes calls) fun value => .bind (write value) fun _ => .pure value
  | unary op e =>
    simp only [eval]
    cases (unary op e).constant? with
    | some value => exact .pure value
    | none => exact .bind (eval_maintains (e := e) writes calls) fun value => .ofExcept _
  | binary l op r =>
    obtain ⟨writesL, writesR⟩ := List.forall_mem_append.1 writes
    obtain ⟨callsL, callsR⟩ := List.forall_mem_append.1 calls
    simp only [eval]
    cases (binary l op r).constant? with
    | some value => exact .pure value
    | none =>
      refine .bind (eval_maintains writesL callsL) fun left => ?_
      cases op.action.shortCircuit? left with
      | some b => exact .pure _
      | none => exact .bind (eval_maintains writesR callsR) fun right => .ofExcept _
  | call f es =>
    obtain ⟨call, calls⟩ := List.forall_mem_cons.1 calls
    refine .bind (evalArgs_maintains writes calls) fun values => ?_
    refine .bind (call values) fun result => ?_
    cases result with
    | some value => exact .pure value
    | none => exact .fault _
  | convert t e =>
    simp only [eval]
    cases (convert t e).constant? with
    | some value => exact .pure value
    | none => exact .bind (eval_maintains (e := e) writes calls) fun value => .ofExcept _

theorem evalArgs_maintains {es : List Expr}
    (writes : ∀ v ∈ assignedOf es, ∀ value, Maintains I (Run.write v value))
    (calls : ∀ f ∈ callsOf es, ∀ args, Maintains I (f.apply invoke args)) :
    Maintains I (evalArgs invoke es) := by
  cases es with
  | nil => exact .pure []
  | cons e es =>
    obtain ⟨writesE, writesEs⟩ := List.forall_mem_append.1 writes
    obtain ⟨callsE, callsEs⟩ := List.forall_mem_append.1 calls
    refine .bind (eval_maintains writesE callsE) fun value => ?_
    exact .bind (evalArgs_maintains writesEs callsEs) fun values => .pure _

end

theorem evalAlone_maintains {e : Expr}
    (writes : ∀ v ∈ e.assigned, ∀ value, Maintains I (Run.write v value))
    (calls : ∀ f ∈ e.calls, ∀ args, Maintains I (f.apply invoke args)) :
    Maintains I (e.evalAlone invoke) := by
  cases e with
  | call f es =>
    obtain ⟨call, calls⟩ := List.forall_mem_cons.1 calls
    exact .bind (evalArgs_maintains writes calls) call
  | _ => exact .bind (eval_maintains writes calls) fun value => .pure _

end Expr

end

end ScriptLang
