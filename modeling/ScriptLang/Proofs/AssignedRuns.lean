import ScriptLang.Proofs.AssignedCode
import ScriptLang.Proofs.ReadOnly

/-! In a chain of units without errors an activation reads a variable of its own only after it has
assigned it. Variables that a unit declares for all functions may be read before, and so may
variables that are declared bare in a branch or in a loop. -/

namespace ScriptLang

/-- The innermost activation, or any one for a global variable, has assigned the variable. -/
def State.Assigned (s : State) (v : Var) : Prop := (s.read? v).isSome = true

/-- A global variable is found among the globals, whatever the frames. -/
theorem State.assigned_global {v : Var} (isGlobal : v.isGlobal = true) (s : State) :
    s.Assigned v ↔ (s.globals.read? v).isSome = true := by
  simp [Assigned, read?, isGlobal]

/-- A local variable is found in the innermost frame. -/
theorem State.assigned_local {v : Var} (isLocal : v.isGlobal = false) (s : State) :
    s.Assigned v ↔ ∃ frame, s.frames.head? = some frame ∧ (Store.read? frame v).isSome = true := by
  simp [Assigned, read?, isLocal, Option.isSome_bind, Option.any_eq_true]

theorem Store.isSome_read?_write {store : Store} {v : Var} (w : Var) (value : Value)
    (has : (store.read? v).isSome = true) : ((store.write w value).read? v).isSome = true := by
  rw [read?_write]
  split
  · rfl
  · exact has

theorem State.assigned_write {s : State} {v : Var} (w : Var) (value : Value) (holds : s.Assigned v) :
    (s.write w value).Assigned v := by
  cases isGlobal : v.isGlobal with
  | true =>
    rw [assigned_global isGlobal] at holds ⊢
    unfold write
    split
    · exact Store.isSome_read?_write w value holds
    · cases s.frames <;> exact holds
  | false =>
    rw [assigned_local isGlobal] at holds ⊢
    obtain ⟨frame, top, has⟩ := holds
    obtain ⟨rest, frames⟩ := List.head?_eq_some_iff.1 top
    unfold write
    split
    · exact ⟨frame, top, has⟩
    · rw [frames]
      exact ⟨_, rfl, Store.isSome_read?_write w value has⟩

theorem State.assigned_write_self {s : State} (v : Var) (value : Value) (active : s.frames ≠ []) :
    (s.write v value).Assigned v := by
  cases isGlobal : v.isGlobal with
  | true =>
    rw [assigned_global isGlobal]
    simp [write, isGlobal]
  | false =>
    rw [assigned_local isGlobal]
    obtain ⟨frame, rest, frames⟩ := List.exists_cons_of_ne_nil active
    simp [write, isGlobal, frames]

/-- A variable that is assigned has a value, and to evaluate it changes nothing. -/
theorem State.Assigned.eval_var {s : State} {v : Var} (holds : s.Assigned v) (invoke : Invoke) :
    ∃ value, (Expr.var v).eval invoke s = .ok value s := by
  obtain ⟨value, given⟩ := Option.isSome_iff_exists.1 holds
  rw [Expr.eval]
  cases v.constant with
  | some constant => exact ⟨constant, rfl⟩
  | none =>
    refine ⟨value, ?_⟩
    show Run.read v s = .ok value s
    rw [Run.read_apply, given]

namespace Program

variable (p : Program) (limit : Option Nat)

theorem runFrom_keepsAssigned {v : Var} (isGlobal : v.isGlobal = true) (fuel : Nat) (body : Body)
    (place : Nat) : Maintains (fun s => s.Assigned v) (p.runFrom limit fuel body place) := by
  have framed (s : State) (frames : List Store) :
      State.Assigned { s with frames := frames } v ↔ s.Assigned v := by
    simp only [State.assigned_global isGlobal]
  induction fuel using Nat.strongRecOn generalizing body place with
  | ind fuel ih =>
    refine p.runFrom_maintains limit fuel (fun n bound s _ isEntry place _ => ?_) place
    refine Run.stmt_maintains body isEntry place (fun w _ value s => State.assigned_write w value)
      (fun f _ args => ?_) fun _ _ _ _ holds => holds
    refine p.callee_maintains limit (fun _ _ holds => holds) args fun _ callee _ => ?_
    exact .inFrame (ih n bound callee 0) (fun s => (framed s _).2) fun s => (framed s _).2

/-- A call leaves assigned what its caller has assigned. -/
theorem callee_keepsAssigned (v : Var) (fuel : Nat) (f : Fn) (args : List Value) :
    Maintains (fun s => s.Assigned v) (f.apply (p.callee limit fuel) args) := by
  cases isGlobal : v.isGlobal with
  | true =>
    refine p.callee_maintains limit (fun _ _ holds => holds) args fun _ callee _ => ?_
    refine .inFrame (p.runFrom_keepsAssigned limit isGlobal fuel callee 0) (fun s => ?_) fun s => ?_
    all_goals
      simp only [State.assigned_global isGlobal]
      exact id
  | false =>
    intro s holds
    have frames := p.callee_keeps_frames limit fuel f args s.frames s rfl
    rw [State.assigned_local isGlobal] at holds ⊢
    rwa [frames]

/-- A step inside one activation leaves assigned what was assigned before. -/
theorem LeadsInto.keepsAssigned {p : Program} {limit : Option Nat} {first second : Point}
    (leads : p.LeadsInto limit first second)
    (stays : ∀ f values, first.task ≠ .call f values) {v : Var} (holds : first.state.Assigned v) :
    second.state.Assigned v := by
  have kept := leads.maintains (I := fun s => s.Assigned v)
    (fun w _ value s => State.assigned_write w value)
    (fun n f _ args => p.callee_keepsAssigned limit v n f args) (fun _ _ holds => holds) holds
  refine kept.resolve_right ?_
  rintro ⟨f, values, _, isCall, _⟩
  exact stays f values isCall

end Program

/-- Arguments that fit give every parameter a value. -/
theorem Store.ofArguments_assigns {R : Var → Value → Prop} {parameters : List Var}
    {values : List Value} (fit : List.Forall₂ R parameters values) {v : Var}
    (isParameter : v ∈ parameters) : ((ofArguments parameters values).read? v).isSome = true := by
  unfold ofArguments
  have given : v ∈ parameters ∨ (Store.read? .empty v).isSome = true := .inl isParameter
  clear isParameter
  revert given
  generalize (OrderedMap.empty : Store) = store
  intro given
  induction fit generalizing store with
  | nil => exact given.resolve_left List.not_mem_nil
  | @cons p value _ _ _ _ ih =>
    refine ih (Store.write store p value) ?_
    rcases given with member | has
    · rcases List.mem_cons.1 member with rfl | member
      · exact .inr (by simp)
      · exact .inl member
    · exact .inr (isSome_read?_write p value has)

def Task.Ready (exempt : Var → Prop) (s : State) : Task → Prop
  | .eval e | .alone e => ∀ v ∈ e.vars, exempt v ∨ s.Assigned v
  | .args es => ∀ v ∈ Expr.varsOf es, exempt v ∨ s.Assigned v
  | .call _ _ => True
  | .run body place => ∃ parameters assigned, body.AssignedAt exempt parameters assigned ∧
      ∀ v, assigned place v → s.Assigned v

structure Program.Assigns (exempt : Var → Prop) (p : Program) : Prop where
  code : ∀ q ∈ p.units.flatten, MentionsAssigned exempt q
  parameters : ∀ q ∈ p.units.flatten, ∀ v ∈ q.1.parameters, v.isGlobal = false
  entry : ∀ e body, p.entry = some e → p.body? e = some body →
    ∃ f, (f, body) ∈ p.units.flatten ∧ f.parameters = []

namespace Program

variable {known exempt : Var → Prop} {p : Program} {limit : Option Nat}

/-- A declaration writes its variable before control goes on. -/
theorem stmt_declares {invoke : Invoke} {body : Body} {isEntry : Bool} {place : Nat} {v : Var}
    {e : Expr} {s t : State} {next : Next}
    (given : Run.stmt invoke body isEntry place (.declare v e) s = .ok next t) :
    ∃ (value : Value) (u : State), t = u.write v value := by
  obtain ⟨value, u, _, rest⟩ := Run.ok_of_bind given
  obtain ⟨_, _, written, rest⟩ := Run.ok_of_bind rest
  cases written
  cases rest
  exact ⟨value, u, rfl⟩

section

variable (isSafe : p.Safe known) (unique : ToldApart known) (assigns : p.Assigns exempt)

include isSafe unique assigns

theorem LeadsInto.ready {first second : Point} (leads : p.LeadsInto limit first second)
    (taskSafe : first.task.Safe known p) (typed : first.state.Typed known)
    (active : 0 < first.state.frames.length) (ready : first.task.Ready exempt first.state) :
    second.task.Ready exempt second.state := by
  -- What was assigned still is, so only the variables of the new task matter.
  have later {vs : List Var} (stays : ∀ f values, first.task ≠ .call f values)
      (old : ∀ v ∈ vs, exempt v ∨ first.state.Assigned v) :
      ∀ v ∈ vs, exempt v ∨ second.state.Assigned v := fun v member =>
    (old v member).imp_right (leads.keepsAssigned stays)
  cases leads with
  | assigned => exact (List.forall_mem_cons.1 ready).2
  | operand | converted | callArgs | alone | aloneArgs => exact ready
  | left => exact (List.forall_mem_append.1 ready).1
  | right => exact later (by simp) (List.forall_mem_append.1 ready).2
  | call | aloneCall => trivial
  | argument => exact (List.forall_mem_append.1 ready).1
  | arguments => exact later (by simp) (List.forall_mem_append.1 ready).2
  | @body n f values s body userMade _ found =>
    obtain ⟨_, callable, fits⟩ := taskSafe
    obtain ⟨body', found', member⟩ := isSafe.found (callable.resolve_left (by simp [userMade]))
    obtain rfl := Option.some.inj (found.symm.trans found')
    obtain ⟨assigned, isAssigned⟩ := assigns.code _ member
    refine ⟨_, assigned, isAssigned, fun v atStart => ?_⟩
    have isParameter := isAssigned.start v atStart
    rw [State.assigned_local (assigns.parameters _ member v isParameter)]
    exact ⟨_, rfl, Store.ofArguments_assigns fits isParameter⟩
  | declared get | stands get | tested get | returned get =>
    obtain ⟨_, assigned, isAssigned, holds⟩ := ready
    exact fun v member => (isAssigned.mentions _ _ get v member).imp_right (holds v)
  | @next n body place stmt s target t get given =>
    obtain ⟨parameters, assigned, isAssigned, holds⟩ := ready
    obtain ⟨f, fnSafe, _⟩ := taskSafe
    obtain ⟨_, stmt', get', leads'⟩ := typed_of_ok
      (Run.stmt_keeps (calls_keep isSafe unique limit n) fnSafe.body s.inEntry get) typed given
    obtain rfl := Option.some.inj (get.symm.trans get')
    refine ⟨parameters, assigned, isAssigned, fun v atTarget => ?_⟩
    rcases isAssigned.leads place target stmt get leads' v atTarget with old | ⟨e, rfl⟩
    · exact (LeadsInto.next get given).keepsAssigned (by simp) (holds v old)
    · obtain ⟨value, u, rfl⟩ := stmt_declares given
      refine State.assigned_write_self v value fun none => ?_
      have frames := (LeadsInto.next get given : p.LeadsInto limit _ _).frames
      rw [State.length_write, none, List.length_nil] at frames
      simp only at active frames
      omega

/-- A run comes only to tasks whose variables are assigned, or exempt. -/
theorem Reaches.ready {fuel : Nat} {globals : Store} {host : Host} {point : Point}
    (reached : p.Reaches limit fuel globals host point) (typed : globals.Typed known) :
    point.task.Ready exempt point.state := by
  obtain ⟨start, starts, path⟩ := reached
  induction path with
  | refl =>
    obtain ⟨_, e, body, isEntry, found, rfl⟩ := starts
    obtain ⟨f, member, none⟩ := assigns.entry e body isEntry found
    obtain ⟨assigned, isAssigned⟩ := assigns.code _ member
    refine ⟨_, assigned, isAssigned, fun v atStart => ?_⟩
    have isParameter := isAssigned.start v atStart
    rw [none] at isParameter
    contradiction
  | tail path step ih =>
    have reached : p.Reaches limit fuel globals host _ := ⟨start, starts, path⟩
    obtain ⟨taskSafe, typed'⟩ := reached.safe isSafe unique typed
    exact step.ready isSafe unique assigns taskSafe typed' reached.frames_pos ih

end

end Program

end ScriptLang
