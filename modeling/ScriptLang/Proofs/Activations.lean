import ScriptLang.Proofs.ChainRuns
import ScriptLang.Proofs.CompiledConstants
import ScriptLang.Proofs.Maintained

/-! A call runs in a frame of its own and leaves the frames of its callers alone. So a variable
of an activation keeps its value until this activation runs a statement that writes it. -/

namespace ScriptLang

def Stmt.written : Stmt → List Var
  | .declare v e => v :: e.assigned
  | s => s.assigned

/-- The frame of a call satisfies `P`, and the calls behind it have the frames `below`. -/
def State.OnTop (P : Store → Prop) (below : List Store) (s : State) : Prop :=
  ∃ frame, s.frames = frame :: below ∧ P frame

section

variable {I : State → Prop} {P : Store → Prop} {below : List Store}

theorem Run.write_onTop {v : Var} {value : Value}
    (keeps : v.isGlobal = false → ∀ frame, P frame → P (frame.write v value)) :
    Maintains (State.OnTop P below) (Run.write v value) := by
  intro s holds
  obtain ⟨frame, frames, isP⟩ := holds
  show (s.write v value).OnTop P below
  unfold State.write
  cases isGlobal : v.isGlobal with
  | true => exact ⟨frame, frames, isP⟩
  | false =>
    rw [frames]
    exact ⟨frame.write v value, rfl, keeps isGlobal frame isP⟩

def Stmt.StandsAlone (s : Stmt) : Prop := ∃ e, s = .expr e

/-- A statement maintains what its writes and its calls maintain. One that stands alone in the
entry function leaves its value as well. -/
theorem Run.stmt_maintains {invoke : Invoke} (body : Body) (isEntry : Bool) (place : Nat)
    {stmt : Stmt} (writes : ∀ v ∈ stmt.written, ∀ value, Maintains I (Run.write v value))
    (calls : ∀ f ∈ stmt.calls, ∀ args, Maintains I (f.apply invoke args))
    (last : isEntry = true → stmt.StandsAlone → ∀ s value, I s → I { s with last := value }) :
    Maintains I (Run.stmt invoke body isEntry place stmt) := by
  have jumps (l : Label) : Maintains I (Run.jump body l) := by
    unfold Run.jump
    split
    · exact .pure _
    · exact .fault _
  cases stmt with
  | declare v e =>
    obtain ⟨write, writes⟩ := List.forall_mem_cons.1 writes
    exact .bind (Expr.eval_maintains writes calls) fun value =>
      .bind (write value) fun _ => .pure _
  | expr e =>
    refine .bind (Expr.evalAlone_maintains writes calls) fun value => ?_
    dsimp only
    split
    next isEntry => exact .bind (.modify fun s => last isEntry ⟨e, rfl⟩ s value) fun _ => .pure _
    · exact .pure _
  | label l => exact .pure _
  | goto l => exact jumps l
  | gotoIf l c value =>
    refine .bind (Expr.eval_maintains writes calls) fun result => ?_
    split
    · split
      · exact jumps l
      · exact .pure _
    · exact .fault _
  | ret value =>
    cases value with
    | none => exact .pure _
    | some e => exact .bind (Expr.eval_maintains writes calls) fun value => .pure _
  | _ => exact .fault _

namespace Program

variable (p : Program) (limit : Option Nat)

/-- A call maintains what builtins do and what the run of a body does in its frame. -/
theorem callee_maintains {fuel : Nat} (host : ∀ s host, I s → I { s with host := host }) {f : Fn}
    (args : List Value)
    (runs : f.builtin = none → ∀ body, p.body? f = some body →
      Maintains I (Run.inFrame (Store.ofArguments f.parameters args) (p.runFrom limit fuel body 0))) :
    Maintains I (f.apply (p.callee limit fuel) args) := by
  unfold Fn.apply
  cases isBuiltin : f.builtin with
  | some b => exact Builtin.run_maintains host b args
  | none =>
    dsimp only
    unfold callee invoke
    refine .get_bind fun s => ?_
    cases s.reached? limit with
    | some n => exact .fault _
    | none =>
      dsimp only
      cases found : p.body? f with
      | none => exact .fault _
      | some body => exact runs isBuiltin body found

/-- The run of a body maintains what each of its statements does. -/
theorem runFrom_maintains {body : Body} (fuel : Nat)
    (each : ∀ n < fuel, ∀ s ∈ body, ∀ isEntry place, (∃ t, I t ∧ t.inEntry = isEntry) →
      Maintains I (Run.stmt (p.callee limit n) body isEntry place s)) (place : Nat) :
    Maintains I (p.runFrom limit fuel body place) := by
  induction fuel generalizing place with
  | zero => exact fun s holds => holds
  | succ fuel ih =>
    have ih := ih fun n bound => each n (Nat.lt_succ_of_lt bound)
    intro s holds
    cases get : body[place]? with
    | none =>
      rw [p.runFrom_end limit fuel get]
      exact holds
    | some stmt =>
      rw [p.runFrom_succ limit fuel get]
      have step := each fuel (Nat.lt_succ_self fuel) stmt (List.mem_of_getElem? get) s.inEntry
        place ⟨s, holds, rfl⟩ s holds
      cases given : Run.stmt (p.callee limit fuel) body s.inEntry place stmt s with
      | ok next t =>
        rw [given] at step
        cases next with
        | goto target => exact ih target t step
        | ret r => exact step
      | error stop t =>
        rw [given] at step
        exact step

/-- A call takes its frame away again, so it leaves all frames as they are if the run of the body
leaves those of its callers. -/
theorem callee_keeps_frames_of {fuel : Nat}
    (runs : ∀ body below, Maintains (State.OnTop (fun _ => True) below) (p.runFrom limit fuel body 0))
    (f : Fn) (args : List Value) (frames : List Store) :
    Maintains (fun s => s.frames = frames) (f.apply (p.callee limit fuel) args) := by
  refine p.callee_maintains limit (fun s host holds => holds) args fun _ callee _ => ?_
  refine .inFrame (runs callee frames) (fun s same => ?_) fun s holds => ?_
  · exact ⟨_, congrArg _ same, trivial⟩
  · obtain ⟨_, same, _⟩ := holds
    simp [same]

/-- Whatever a body does, the frames of its callers stay as they are. -/
theorem runFrom_onTop (fuel : Nat) (body : Body) (place : Nat) (below : List Store) :
    Maintains (State.OnTop (fun _ => True) below) (p.runFrom limit fuel body place) := by
  induction fuel using Nat.strongRecOn generalizing body place below with
  | ind fuel ih =>
    refine p.runFrom_maintains limit fuel (fun n bound s _ isEntry place _ => ?_) place
    refine Run.stmt_maintains body isEntry place (fun v _ value => ?_) (fun f _ args => ?_)
      fun _ _ s value holds => holds
    · exact Run.write_onTop fun _ _ _ => trivial
    · intro s holds
      obtain ⟨frame, frames, _⟩ := holds
      have kept := p.callee_keeps_frames_of limit (fun body => ih n bound body 0) f args s.frames s rfl
      exact ⟨frame, kept.trans frames, trivial⟩

/-- A call leaves all frames as they are. -/
theorem callee_keeps_frames (fuel : Nat) (f : Fn) (args : List Value) (frames : List Store) :
    Maintains (fun s => s.frames = frames) (f.apply (p.callee limit fuel) args) :=
  p.callee_keeps_frames_of limit (fun body => p.runFrom_onTop limit fuel body 0) f args frames

theorem callee_keepsDepth (fuel : Nat) (f : Fn) (args : List Value) (size : Nat) :
    Maintains (fun s => s.frames.length = size) (f.apply (p.callee limit fuel) args) := by
  intro s same
  have kept := p.callee_keeps_frames limit fuel f args s.frames s rfl
  exact (congrArg List.length kept).trans same

end Program

end

/-- The value of a variable in the activation with so many callers: the one among the globals,
or the one in the frame of this activation. -/
def State.valueIn (s : State) (callers : Nat) (v : Var) : Option Value :=
  if v.isGlobal then s.globals.read? v
  else s.frames.reverse[callers]?.bind fun frame => Store.read? frame v

theorem State.valueIn_global (s : State) {v : Var} (isGlobal : v.isGlobal = true) (callers : Nat) :
    s.valueIn callers v = s.globals.read? v := if_pos isGlobal

structure State.Shows (v : Var) (callers : Nat) (value : Option Value) (size : Nat) (s : State) :
    Prop where
  size : s.frames.length = size
  value : s.valueIn callers v = value

section

variable {v : Var} {callers size : Nat} {value : Option Value}

/-- Writing another variable, or a local one of an inner activation, changes nothing. -/
theorem State.valueIn_write {s : State} {w : Var} (x : Value)
    (apart : w.id ≠ v.id ∨ (v.isGlobal = false ∧ callers + 1 < s.frames.length)) :
    (s.write w x).valueIn callers v = s.valueIn callers v := by
  unfold valueIn write
  cases vGlobal : v.isGlobal with
  | true =>
    have other : w.id ≠ v.id := apart.resolve_right fun inner => by simp [vGlobal] at inner
    cases w.isGlobal with
    | true => simp [Ne.symm other]
    | false => cases s.frames <;> rfl
  | false =>
    cases w.isGlobal with
    | true => rfl
    | false =>
      cases frames : s.frames with
      | nil => simp [frames]
      | cons frame rest =>
        simp only [Bool.false_eq_true, if_false, List.reverse_cons]
        by_cases inner : callers < rest.length
        · rw [List.getElem?_append_left (by simpa using inner),
            List.getElem?_append_left (by simpa using inner)]
        · have other : w.id ≠ v.id := apart.resolve_right fun inside => by
            have deep := inside.2
            rw [frames, List.length_cons] at deep
            omega
          rw [List.getElem?_append_right (by simpa using inner),
            List.getElem?_append_right (by simpa using inner)]
          cases callers - rest.reverse.length <;> simp [Ne.symm other]

theorem State.length_write (s : State) (w : Var) (x : Value) :
    (s.write w x).frames.length = s.frames.length := by
  unfold write
  split
  · rfl
  · cases frames : s.frames <;> simp [frames]

theorem Run.write_keepsDepth (w : Var) (x : Value) (size : Nat) :
    Maintains (fun s => s.frames.length = size) (Run.write w x) :=
  fun s same => (s.length_write w x).trans same

theorem Run.write_shows {w : Var}
    (apart : w.id ≠ v.id ∨ (v.isGlobal = false ∧ callers + 1 < size)) (x : Value) :
    Maintains (State.Shows v callers value size) (Run.write w x) := by
  intro s holds
  refine ⟨(s.length_write w x).trans holds.size, (s.valueIn_write x ?_).trans holds.value⟩
  exact holds.size ▸ apart

/-- Writing a variable with another number leaves a global one alone. -/
theorem Run.write_keepsGlobal {w : Var} (apart : w.id ≠ v.id) (x : Value) :
    Maintains (fun s => s.globals.read? v = value) (Run.write w x) := by
  intro s holds
  show (s.write w x).globals.read? v = value
  unfold State.write
  split
  · simpa [Ne.symm apart] using holds
  · cases s.frames <;> exact holds

/-- A call leaves the values of all activations alone, if it does so with a global variable. -/
theorem Program.callee_shows {p : Program} {limit : Option Nat} {fuel : Nat} {f : Fn}
    {args : List Value}
    (globals : v.isGlobal = true → ∀ value, Maintains (fun s => s.globals.read? v = value)
      (f.apply (p.callee limit fuel) args)) :
    Maintains (State.Shows v callers value size) (f.apply (p.callee limit fuel) args) := by
  intro s holds
  have frames := p.callee_keeps_frames limit fuel f args s.frames s rfl
  refine ⟨(congrArg List.length frames).trans holds.size, ?_⟩
  rw [← holds.value]
  unfold State.valueIn
  cases isGlobal : v.isGlobal with
  | true => exact globals isGlobal _ s rfl
  | false =>
    rw [frames]
    rfl

end

namespace Task

def written : Task → List Var
  | eval e | alone e => e.assigned
  | args es => Expr.assignedOf es
  | call _ _ => []
  | run body place => (body[place]?.map Stmt.written).getD []

def calls : Task → List Fn
  | eval e | alone e => e.calls
  | args es => Expr.callsOf es
  | call f _ => [f]
  | run body place => (body[place]?.map Stmt.calls).getD []

@[simp] theorem written_run {body : Body} {place : Nat} {s : Stmt} (get : body[place]? = some s) :
    (run body place).written = s.written := by simp [written, get]

@[simp] theorem calls_run {body : Body} {place : Nat} {s : Stmt} (get : body[place]? = some s) :
    (run body place).calls = s.calls := by simp [calls, get]

end Task

namespace Program

variable {p : Program} {limit : Option Nat} {I : State → Prop}

/-- A step from one point to the next one maintains what the writes and calls of its task do,
or it enters a call. -/
theorem LeadsInto.maintains {first second : Point} (leads : p.LeadsInto limit first second)
    (writes : ∀ v ∈ first.task.written, ∀ value, Maintains I (Run.write v value))
    (calls : ∀ n, ∀ f ∈ first.task.calls, ∀ args, Maintains I (f.apply (p.callee limit n) args))
    (last : ∀ s value, I s → I { s with last := value }) (holds : I first.state) :
    I second.state ∨ ∃ f values body, first.task = .call f values ∧ f.builtin = none ∧
      p.body? f = some body ∧ second.task = .run body 0 ∧ second.state = { first.state with
        frames := Store.ofArguments f.parameters values :: first.state.frames } := by
  cases leads with
  | @right n _ _ _ _ _ _ _ given _ =>
    have left := Expr.eval_maintains (List.forall_mem_append.1 writes).1
      (List.forall_mem_append.1 (calls n)).1
    exact .inl (left.of_ok holds given)
  | @call n _ _ _ _ _ given | @aloneCall n _ _ _ _ _ given =>
    have args := Expr.evalArgs_maintains writes (List.forall_mem_cons.1 (calls n)).2
    exact .inl (args.of_ok holds given)
  | @arguments n _ _ _ _ _ given =>
    have head := Expr.eval_maintains (List.forall_mem_append.1 writes).1
      (List.forall_mem_append.1 (calls n)).1
    exact .inl (head.of_ok holds given)
  | body userMade _ found => exact .inr ⟨_, _, _, rfl, userMade, found, rfl, rfl⟩
  | @next n body place stmt s target t get given =>
    simp only [Task.written_run get, Task.calls_run get] at writes calls
    have step := Run.stmt_maintains body s.inEntry place writes (calls n) fun _ _ => last
    exact .inl (step.of_ok holds given)
  | _ => exact .inl holds

/-- A task maintains what its writes and its calls do, and the run of a body if it is one. -/
theorem perform_maintains {fuel : Nat} {task : Task}
    (writes : ∀ v ∈ task.written, ∀ value, Maintains I (Run.write v value))
    (calls : ∀ f ∈ task.calls, ∀ args, Maintains I (f.apply (p.callee limit fuel) args))
    (runs : ∀ body place, task = .run body place → Maintains I (p.runFrom limit fuel body place)) :
    Maintains I (p.perform limit fuel task) := by
  cases task with
  | eval e => exact .bind (Expr.eval_maintains writes calls) fun _ => .pure _
  | args es => exact Expr.evalArgs_maintains writes calls
  | alone e => exact .bind (Expr.evalAlone_maintains writes calls) fun _ => .pure _
  | call f values => exact .bind (calls f List.mem_cons_self values) fun _ => .pure _
  | run body place => exact .bind (runs body place rfl) fun _ => .pure _

end Program

end ScriptLang
