import ScriptLang.Proofs.Activations

/-! Whatever is done in an activation, and whether it ends with a value or a fault, the frames of its
callers stay as they are, and its own frame changes only where the task itself assigns. A call
changes no frame once its arguments are evaluated, however deep the functions call one another. -/

namespace ScriptLang

/-- The second frame gives the values that the first one gives, but for local variables among the
written ones. -/
def Store.ChangesOnly (written : List Var) (before after : Store) : Prop :=
  ∀ v, (∀ w ∈ written, w.isGlobal = false → w.id ≠ v.id) → after.read? v = before.read? v

theorem Store.ChangesOnly.write {written : List Var} {before after : Store} {v : Var}
    (changes : ChangesOnly written before after) (member : v ∈ written)
    (isLocal : v.isGlobal = false) (value : Value) :
    ChangesOnly written before (after.write v value) := by
  intro w others
  have apart : w.id ≠ v.id := Ne.symm (others v member isLocal)
  rw [Store.read?_write, if_neg apart]
  exact changes w others

def Task.assigned : Task → List Var
  | run body _ => body.flatMap Stmt.written
  | task => task.written

namespace Program

variable (p : Program) (limit : Option Nat) (fuel : Nat)

theorem callee_onTop {P : Store → Prop} {below : List Store} (f : Fn) (args : List Value) :
    Maintains (State.OnTop P below) (f.apply (p.callee limit fuel) args) := by
  intro s holds
  obtain ⟨frame, frames, isP⟩ := holds
  exact ⟨frame, (p.callee_keeps_frames limit fuel f args s.frames s rfl).trans frames, isP⟩

theorem runFrom_changesOnly {top : Store} {below : List Store} (body : Body) (place : Nat) :
    Maintains (State.OnTop (top.ChangesOnly (body.flatMap Stmt.written)) below)
      (p.runFrom limit fuel body place) := by
  refine p.runFrom_maintains limit fuel (fun n _ s member isEntry place _ => ?_) place
  refine Run.stmt_maintains body isEntry place (fun v isWritten value => ?_)
    (fun f _ args => p.callee_onTop limit _ f args) fun _ _ s value holds => holds
  have within := List.mem_flatMap_of_mem member isWritten
  exact Run.write_onTop fun isLocal _ changes => changes.write within isLocal value

/-- A task leaves the frames of the callers, and in its own frame all but what it assigns itself. -/
theorem perform_changesOnly {top : Store} {below : List Store} (task : Task) :
    Maintains (State.OnTop (top.ChangesOnly task.assigned) below) (p.perform limit fuel task) := by
  cases task with
  | run body place => exact .bind (p.runFrom_changesOnly limit fuel body place) fun _ => .pure _
  | _ =>
    refine perform_maintains (fun v member value => ?_) (fun f _ args => p.callee_onTop limit _ f args)
      fun _ _ isRun => by cases isRun
    exact Run.write_onTop fun isLocal _ changes => changes.write member isLocal value

/-- A call leaves the frames that there are when its arguments are evaluated, or that the evaluation
of an argument leaves when it fails. -/
theorem call_frames (f : Fn) (es : List Expr) (s : State) :
    (Answer.state ((Expr.call f es).eval (p.callee limit fuel) s)).frames =
        (Answer.state (Expr.evalArgs (p.callee limit fuel) es s)).frames ∧
      (Answer.state ((Expr.call f es).evalAlone (p.callee limit fuel) s)).frames =
        (Answer.state (Expr.evalArgs (p.callee limit fuel) es s)).frames := by
  rw [Expr.eval, Expr.evalAlone]
  cases given : Expr.evalArgs (p.callee limit fuel) es s with
  | error stop t =>
    rw [Run.bind_of_error _ given, Run.bind_of_error _ given]
    exact ⟨rfl, rfl⟩
  | ok values t =>
    rw [Run.bind_of_ok _ given, Run.bind_of_ok _ given]
    have kept := p.callee_keeps_frames limit fuel f values t.frames
    refine ⟨?_, kept t rfl⟩
    refine Maintains.bind kept (fun result => ?_) t rfl
    cases result with
    | none => exact .fault _
    | some value => exact .pure _

/-- From any state with an active call, and whatever way it ends, a task leaves the frames of the
callers as they are, and in the frame on top it changes nothing but local variables that it assigns
itself. A call changes no frame behind its arguments. -/
theorem keeps_callers {s : State} {top : Store} {below : List Store}
    (frames : s.frames = top :: below) :
    (∀ task : Task, ∃ top', (Answer.state (p.perform limit fuel task s)).frames = top' :: below ∧
      top.ChangesOnly task.assigned top') ∧
    (∀ (f : Fn) (values : List Value),
      (Answer.state (f.apply (p.callee limit fuel) values s)).frames = top :: below) ∧
    ∀ (f : Fn) (es : List Expr),
      (Answer.state ((Expr.call f es).eval (p.callee limit fuel) s)).frames =
          (Answer.state (Expr.evalArgs (p.callee limit fuel) es s)).frames ∧
        (Answer.state ((Expr.call f es).evalAlone (p.callee limit fuel) s)).frames =
          (Answer.state (Expr.evalArgs (p.callee limit fuel) es s)).frames := by
  refine ⟨fun task => ?_, fun f values => ?_, fun f es => p.call_frames limit fuel f es s⟩
  · exact p.perform_changesOnly limit fuel task s ⟨top, frames, fun _ _ => rfl⟩
  · exact p.callee_keeps_frames limit fuel f values (top :: below) s frames

end Program

namespace InnerLocal

def argument : Var := ⟨0, "n", .int, .parameter 0, .readOnly none⟩
def inner : Var := ⟨1, "inner", .int, .localVar, .mutable⟩
def descend : Fn := ⟨2, "descend", [argument], .int, some 0, none⟩
def base : Label := ⟨3, "base"⟩

def call : Expr :=
  .call descend [.assign inner (.binary (.var argument) .intAddition (.literal (.int (-1))))]

/-- `var inner = n + 10  if n != 0 { descend(inner = n + -1) }  return inner`, lowered. -/
def code : Body := [
  .declare inner (.binary (.var argument) .intAddition (.literal (.int 10))),
  .gotoIf base (.binary (.var argument) .intEquals (.literal (.int 0))) true,
  .expr call,
  .label base,
  .ret (some (.var inner))]

def program : Program := ⟨.empty, none, [(descend, code)], []⟩

def caller : Store := (Store.ofArguments [argument] [.int 2]).write inner (.int 12)

def start : State := ⟨.empty, [caller, .empty], .empty, none⟩

end InnerLocal

theorem innerLocal_keeps_callers :
    InnerLocal.start.frames = [InnerLocal.caller, .empty] ∧
    (∃ t, InnerLocal.call.eval (InnerLocal.program.callee none 16) InnerLocal.start =
      .ok (.int 0) t) ∧
    (Answer.state (InnerLocal.call.eval (InnerLocal.program.callee none 16) InnerLocal.start)).frames =
      [InnerLocal.caller.write InnerLocal.inner (.int 1), .empty] := by
  obtain ⟨_, _, calls⟩ :=
    InnerLocal.program.keeps_callers none 16 (s := InnerLocal.start) rfl
  exact ⟨rfl, ⟨_, rfl⟩, (calls InnerLocal.descend _).1.trans rfl⟩

end ScriptLang
