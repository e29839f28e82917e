import ScriptLang.Proofs.Activations
import ScriptLang.Proofs.BindingDeclarations

/-! From one point of a run on, a variable of the activation there has the same value at all
points and behind all that is done at them, until the activation runs a statement that writes
the variable. A global variable belongs to the activations of the entry function, which no
other function calls. -/

namespace ScriptLang

def Point.callers (point : Point) : Nat := point.state.frames.length - 1

/-- The activation with so many callers is about to run one of some statements. -/
def Point.IsAt (which : Stmt → Prop) (callers : Nat) (point : Point) : Prop :=
  point.callers = callers ∧
    ∃ body place s, point.task = .run body place ∧ body[place]? = some s ∧ which s

namespace Program

variable (p : Program) (limit : Option Nat)

/-- A run comes from one point to another, and on its way the activation with so many callers
runs none of the statements. -/
def LeadsWithout (which : Stmt → Prop) (callers : Nat) : Point → Point → Prop :=
  Relation.ReflTransGen fun a b => ¬a.IsAt which callers ∧ p.LeadsInto limit a b

/-- The states from a point on, until the activation there is about to run one of the
statements: those at later points, and those behind what is done there. -/
inductive StateUntil (which : Stmt → Prop) (first : Point) : State → Prop
  | here {later} (leads : p.LeadsWithout limit which first.callers first later) :
      StateUntil which first later.state
  | behind {later} (leads : p.LeadsWithout limit which first.callers first later)
      (never : ∀ last, Relation.ReflTransGen (p.LeadsInto limit) later last →
        ¬last.IsAt which first.callers) :
      StateUntil which first (Answer.state (p.perform limit later.fuel later.task later.state))

end Program

def Body.Spares (v : Var) (body : Body) : Prop := ∀ s ∈ body, ∀ w ∈ s.written, w.id ≠ v.id

namespace Task

def Spares (v : Var) : Task → Prop
  | run _ _ => True
  | eval e | alone e => ∀ w ∈ e.assigned, w.id ≠ v.id
  | args es => ∀ w ∈ Expr.assignedOf es, w.id ≠ v.id
  | call _ _ => True

def CallsWithin (P : Fn → Prop) : Task → Prop
  | run body _ => ∀ s ∈ body, ∀ f ∈ s.calls, P f
  | eval e | alone e => ∀ f ∈ e.calls, P f
  | args es => ∀ f ∈ Expr.callsOf es, P f
  | call f _ => P f

theorem CallsWithin.calls {P : Fn → Prop} {task : Task} (within : task.CallsWithin P) :
    ∀ f ∈ task.calls, P f := by
  cases task with
  | run body place =>
    cases get : body[place]? with
    | none => simp [Task.calls, get]
    | some s =>
      rw [calls_run get]
      exact within s (List.mem_of_getElem? get)
  | call f values => exact List.forall_mem_singleton.2 within
  | _ => exact within

theorem Safe.calls {known : Var → Prop} {p : Program} {task : Task} (taskSafe : task.Safe known p) :
    ∀ f ∈ task.calls, Callable p.units f := by
  cases task with
  | eval e => exact taskSafe.2.2.1
  | args es =>
    obtain ⟨_, _, _, calls⟩ := taskSafe
    exact calls
  | alone e => exact taskSafe.2.2
  | call f values => exact List.forall_mem_singleton.2 taskSafe.2.1
  | run body place =>
    cases get : body[place]? with
    | none => simp [Task.calls, get]
    | some s =>
      rw [calls_run get]
      obtain ⟨_, safe⟩ := Program.statement_safe taskSafe get
      exact safe.calls

end Task

/-- Code of the program calls only functions that a name can stand for, and none of them writes
the variable if it is global. -/
structure Program.Shields (p : Program) (v : Var) : Prop where
  calls : ∀ q ∈ p.units.flatten, ∀ s ∈ q.2, ∀ f ∈ s.calls, f.Declared
  spares : v.isGlobal = true → ∀ q ∈ p.units.flatten, q.1.declaration.isSome = true →
    Body.Spares v q.2

theorem Program.Shields.calls_of_body {p : Program} {v : Var} {f : Fn} {body : Body}
    (shields : p.Shields v) (found : p.body? f = some body) :
    ∀ s ∈ body, ∀ g ∈ s.calls, g.Declared := by
  obtain ⟨g, member, _⟩ := mem_of_body? found
  exact shields.calls _ member

theorem Stmt.written_subset_vars {s : Stmt} : s.written ⊆ s.vars := by
  cases s with
  | declare v e => exact List.cons_subset_cons v e.assigned_subset_vars
  | gotoIf _ e _ | expr e => exact e.assigned_subset_vars
  | ret value =>
    cases value with
    | none => exact List.nil_subset _
    | some e => exact e.assigned_subset_vars
  | _ => exact List.nil_subset _

section

variable {known : Var → Prop} {p : Program} {limit : Option Nat} {v : Var}

/-- The next step of a task leads into one that spares the variable if it does so itself. -/
theorem Program.LeadsInto.spares {first second : Point} (leads : p.LeadsInto limit first second)
    (spares : ∀ w ∈ first.task.written, w.id ≠ v.id) : second.task.Spares v := by
  cases leads with
  | assigned => exact (List.forall_mem_cons.1 spares).2
  | left _ | argument => exact (List.forall_mem_append.1 spares).1
  | right _ _ _ | arguments _ => exact (List.forall_mem_append.1 spares).2
  | call _ | aloneCall _ | body _ _ _ | next _ _ => trivial
  | declared get =>
    rw [Task.written_run get] at spares
    exact (List.forall_mem_cons.1 spares).2
  | stands get | tested get | returned get =>
    rw [Task.written_run get] at spares
    exact spares
  | _ => exact spares

/-- Functions whose bodies call only one another are not left. -/
theorem Program.LeadsInto.callsWithin {P : Fn → Prop} {first second : Point}
    (leads : p.LeadsInto limit first second)
    (closed : ∀ f body, P f → p.body? f = some body → ∀ s ∈ body, ∀ g ∈ s.calls, P g)
    (within : first.task.CallsWithin P) : second.task.CallsWithin P := by
  cases leads with
  | left _ | argument => exact (List.forall_mem_append.1 within).1
  | right _ _ _ | arguments _ => exact (List.forall_mem_append.1 within).2
  | callArgs | aloneArgs => exact (List.forall_mem_cons.1 within).2
  | call _ | aloneCall _ => exact within _ List.mem_cons_self
  | body _ _ found => exact closed _ _ within found
  | declared get | stands get | tested get | returned get =>
    exact within _ (List.mem_of_getElem? get)
  | _ => exact within

/-- At the point the variable has the value in an activation, and unless this activation runs a
statement that writes the variable, it will have this value later on. -/
structure Point.Sees (v : Var) (callers : Nat) (value : Option Value) (point : Point) : Prop where
  inside : callers < point.state.frames.length
  value : point.state.valueIn callers v = value
  spares : v.isGlobal = true ∨ point.state.frames.length = callers + 1 → point.task.Spares v
  body : v.isGlobal = true → callers + 1 < point.state.frames.length →
    ∀ body place, point.task = .run body place → body.Spares v
  calls : point.task.CallsWithin Fn.Declared

namespace Program

variable (isSafe : p.Safe known) (unique : ToldApart known) (shields : p.Shields v)

include isSafe shields in
/-- A body that does not write a shielded global variable leaves it as it is. -/
theorem runFrom_keepsGlobal (isGlobal : v.isGlobal = true) (limit : Option Nat) (fuel : Nat)
    {q : Fn × Body} (member : q ∈ p.units.flatten) (spares : q.2.Spares v) (place : Nat)
    (value : Option Value) :
    Maintains (fun s => s.globals.read? v = value) (p.runFrom limit fuel q.2 place) := by
  induction fuel using Nat.strongRecOn generalizing q place with
  | ind fuel ih =>
    refine p.runFrom_maintains limit fuel (fun n bound s within isEntry place _ => ?_) place
    refine Run.stmt_maintains q.2 isEntry place (fun w written x => ?_) (fun f called args => ?_)
      fun _ _ _ _ holds => holds
    · exact Run.write_keepsGlobal (spares s within w written) x
    · refine p.callee_maintains limit (fun _ _ holds => holds) args fun userMade callee found => ?_
      have callable := ((isSafe.bodies q member).body.statements s within).calls f called
      obtain ⟨callee', found', isBody⟩ := isSafe.found (callable.resolve_left (by simp [userMade]))
      obtain rfl := Option.some.inj (found.symm.trans found')
      have named := (shields.calls q member s within f called).resolve_left (by simp [userMade])
      have inner := ih n bound isBody (shields.spares isGlobal _ isBody named) 0
      exact .inFrame inner (fun _ holds => holds) fun _ holds => holds

include isSafe shields in
theorem callee_keepsGlobal (isGlobal : v.isGlobal = true) (limit : Option Nat) (fuel : Nat) {f : Fn}
    (callable : Callable p.units f) (declared : f.Declared) (args : List Value)
    (value : Option Value) :
    Maintains (fun s => s.globals.read? v = value) (f.apply (p.callee limit fuel) args) := by
  refine p.callee_maintains limit (fun _ _ holds => holds) args fun userMade callee found => ?_
  obtain ⟨callee', found', isBody⟩ := isSafe.found (callable.resolve_left (by simp [userMade]))
  obtain rfl := Option.some.inj (found.symm.trans found')
  have spares := shields.spares isGlobal _ isBody (declared.resolve_left (by simp [userMade]))
  exact .inFrame (runFrom_keepsGlobal isSafe shields isGlobal limit fuel isBody spares 0 value)
    (fun _ holds => holds) fun _ holds => holds

include isSafe shields in
/-- The body of a function that is called spares a shielded global variable. -/
theorem called_spares (isGlobal : v.isGlobal = true) {f : Fn} {values : List Value} {body : Body}
    (taskSafe : (Task.call f values).Safe known p) (declared : (Task.call f values).CallsWithin Fn.Declared)
    (userMade : f.builtin = none) (found : p.body? f = some body) : body.Spares v := by
  obtain ⟨_, callable, _⟩ := taskSafe
  obtain ⟨body', found', member⟩ := isSafe.found (callable.resolve_left (by simp [userMade]))
  obtain rfl := Option.some.inj (found.symm.trans found')
  exact shields.spares isGlobal _ member (Or.resolve_left declared (by simp [userMade]))

section

variable {point : Point} {callers : Nat} {value : Option Value}
  (seen : point.Sees v callers value) (taskSafe : point.task.Safe known p)
  (notAt : ¬point.IsAt (fun s => v ∈ s.written) callers)

include unique seen taskSafe notAt in
/-- What comes next in the task does not write the variable in its activation. -/
theorem sees_apart (own : v.isGlobal = true ∨ point.state.frames.length = callers + 1)
    (isKnown : known v) : ∀ w ∈ point.task.written, w.id ≠ v.id := by
  have spares := seen.spares own
  obtain ⟨fuel, task, s⟩ := point
  cases task with
  | run body place =>
    cases get : body[place]? with
    | none => simp [Task.written, get]
    | some stmt =>
      rw [Task.written_run get]
      intro w written same
      by_cases inner : v.isGlobal = true ∧ callers + 1 < s.frames.length
      · exact seen.body inner.1 inner.2 body place rfl stmt (List.mem_of_getElem? get) w written same
      · obtain ⟨_, safe⟩ := statement_safe taskSafe get
        obtain rfl := unique w v (safe.vars w (Stmt.written_subset_vars written)) isKnown same
        have inside : callers < s.frames.length := seen.inside
        have here : s.frames.length - 1 = callers := by
          rcases own with isGlobal | isOwn
          · have notDeep : ¬callers + 1 < s.frames.length := fun deep => inner ⟨isGlobal, deep⟩
            omega
          · have isOwn : s.frames.length = callers + 1 := isOwn
            omega
        exact notAt ⟨here, body, place, stmt, rfl, get, written⟩
  | call f values => exact List.forall_mem_nil _
  | _ => exact spares

include unique seen taskSafe notAt in
theorem sees_writes (isKnown : known v) : ∀ w ∈ point.task.written, ∀ x,
    Maintains (State.Shows v callers value point.state.frames.length) (Run.write w x) := by
  intro w written x
  apply Run.write_shows
  by_cases own : v.isGlobal = true ∨ point.state.frames.length = callers + 1
  · exact .inl (sees_apart unique seen taskSafe notAt own isKnown w written)
  · have inside := seen.inside
    exact .inr ⟨Bool.eq_false_iff.2 fun isGlobal => own (.inl isGlobal), by omega⟩

include isSafe shields seen taskSafe in
theorem sees_called (limit : Option Nat) (n : Nat) : ∀ f ∈ point.task.calls, ∀ args,
    Maintains (State.Shows v callers value point.state.frames.length)
      (f.apply (p.callee limit n) args) := by
  intro f called args
  exact callee_shows fun isGlobal => callee_keepsGlobal isSafe shields isGlobal limit n
    (taskSafe.calls f called) (seen.calls.calls f called) args

include isSafe unique shields seen taskSafe notAt in
/-- A step that is not one of a statement that writes the variable leads on to points where the
variable has the same value. -/
theorem LeadsInto.sees (isKnown : known v) {second : Point}
    (leads : p.LeadsInto limit point second) : second.Sees v callers value := by
  have holds : State.Shows v callers value point.state.frames.length point.state :=
    ⟨rfl, seen.value⟩
  have writes := sees_writes unique seen taskSafe notAt isKnown
  have called := sees_called isSafe shields seen taskSafe limit
  have apart := sees_apart unique seen taskSafe notAt
  have declared := leads.callsWithin (fun _ _ _ found => shields.calls_of_body found) seen.calls
  rcases leads.maintains writes called (fun s value holds => ⟨holds.size, holds.value⟩) holds with
    same | ⟨f, values, code, isCall, userMade, found, isRun, entered⟩
  · have size := same.size
    refine ⟨size ▸ seen.inside, same.value, fun own => ?_, fun isGlobal deep body place isRun => ?_,
      declared⟩
    · exact leads.spares (apart (size ▸ own) isKnown)
    · cases leads with
      | next _ _ =>
        obtain ⟨rfl, _⟩ := Task.run.inj isRun
        exact seen.body isGlobal (size ▸ deep) _ _ rfl
      | body userMade _ found =>
        obtain ⟨rfl, _⟩ := Task.run.inj isRun
        exact called_spares isSafe shields isGlobal taskSafe seen.calls userMade found
      | _ => cases isRun
  · have inside := seen.inside
    refine ⟨?_, ?_, fun _ => ?_, fun isGlobal _ body place isRun' => ?_, declared⟩
    · rw [entered]
      exact Nat.lt_succ_of_lt inside
    · rw [← seen.value, entered]
      unfold State.valueIn
      rw [List.reverse_cons, List.getElem?_append_left (by simpa using inside)]
    · rw [isRun]
      trivial
    · obtain ⟨rfl, _⟩ := Task.run.inj (isRun.symm.trans isRun')
      rw [isCall] at taskSafe
      have calls := seen.calls
      rw [isCall] at calls
      exact called_spares isSafe shields isGlobal taskSafe calls userMade found

end

/-- While the activation runs no statement that writes the variable, the variable keeps its
value. -/
theorem LeadsWithout.sees {first later : Point} {callers : Nat} {value : Option Value}
    (isSafe : p.Safe known) (unique : ToldApart known) (shields : p.Shields v) (isKnown : known v)
    (leads : p.LeadsWithout limit (fun s => v ∈ s.written) callers first later)
    (taskSafe : first.task.Safe known p) (typed : first.state.Typed known)
    (seen : first.Sees v callers value) :
    later.task.Safe known p ∧ later.state.Typed known ∧ later.Sees v callers value := by
  induction leads with
  | refl => exact ⟨taskSafe, typed, seen⟩
  | tail _ step ih =>
    obtain ⟨taskSafe, typed, seen⟩ := ih
    obtain ⟨notAt, leads⟩ := step
    obtain ⟨taskSafe', typed'⟩ := leads.safe isSafe unique taskSafe typed
    exact ⟨taskSafe', typed',
      LeadsInto.sees isSafe unique shields seen taskSafe notAt isKnown leads⟩

/-- The same holds of the run of a body to its end. -/
theorem runFrom_sees (isSafe : p.Safe known) (unique : ToldApart known) (shields : p.Shields v)
    (isKnown : known v) {callers : Nat} {value : Option Value} (fuel : Nat) {body : Body}
    (place : Nat) {s : State} (taskSafe : (Task.run body place).Safe known p)
    (typed : s.Typed known) (seen : Point.Sees v callers value ⟨fuel, .run body place, s⟩)
    (never : ∀ last, Relation.ReflTransGen (p.LeadsInto limit) ⟨fuel, .run body place, s⟩ last →
      ¬last.IsAt (fun s => v ∈ s.written) callers) :
    (Answer.state (p.runFrom limit fuel body place s)).valueIn callers v = value := by
  induction fuel generalizing place s with
  | zero => exact seen.value
  | succ fuel ih =>
    cases get : body[place]? with
    | none =>
      rw [p.runFrom_end limit fuel get]
      exact seen.value
    | some stmt =>
      have notAt := never _ .refl
      have writes := sees_writes unique seen taskSafe notAt isKnown
      have called := sees_called isSafe shields seen taskSafe limit fuel
      simp only [Task.written_run get, Task.calls_run get] at writes called
      have step := Run.stmt_maintains body s.inEntry place writes called
        (fun _ _ s value holds => ⟨holds.size, holds.value⟩) s ⟨rfl, seen.value⟩
      rw [p.runFrom_succ limit fuel get]
      cases given : Run.stmt (p.callee limit fuel) body s.inEntry place stmt s with
      | ok next t =>
        rw [given] at step
        cases next with
        | goto target =>
          have leads : p.LeadsInto limit ⟨fuel + 1, .run body place, s⟩ ⟨fuel, .run body target, t⟩ :=
            .next get given
          obtain ⟨taskSafe', typed'⟩ := leads.safe isSafe unique taskSafe typed
          exact ih target taskSafe' typed'
            (LeadsInto.sees isSafe unique shields seen taskSafe notAt isKnown leads)
            fun last path => never last (.head leads path)
        | ret r => exact step.value
      | error stop t =>
        rw [given] at step
        exact step.value

/-- Running a body as a task leaves what the run of the body leaves. -/
theorem perform_run (p : Program) (limit : Option Nat) (fuel : Nat) (body : Body) (place : Nat)
    (s : State) : Answer.state (p.perform limit fuel (.run body place) s) =
      Answer.state (p.runFrom limit fuel body place s) := by
  show Answer.state ((p.runFrom limit fuel body place >>= fun value => pure value.toList) s) = _
  cases given : p.runFrom limit fuel body place s with
  | ok result t =>
    rw [Run.bind_of_ok _ given]
    rfl
  | error stop t =>
    rw [Run.bind_of_error _ given]
    rfl

/-- What is done at a point leaves the variable as it is, if the activation never runs a
statement that writes it from there on. -/
theorem perform_sees {point : Point} {callers : Nat} {value : Option Value} (isSafe : p.Safe known)
    (unique : ToldApart known) (shields : p.Shields v) (isKnown : known v)
    (taskSafe : point.task.Safe known p) (typed : point.state.Typed known)
    (seen : point.Sees v callers value)
    (never : ∀ last, Relation.ReflTransGen (p.LeadsInto limit) point last →
      ¬last.IsAt (fun s => v ∈ s.written) callers) :
    (Answer.state (p.perform limit point.fuel point.task point.state)).valueIn callers v = value := by
  have notAt := never point .refl
  have writes := sees_writes unique seen taskSafe notAt isKnown
  have called := sees_called isSafe shields seen taskSafe limit point.fuel
  obtain ⟨fuel, task, s⟩ := point
  cases task with
  | run body place =>
    have runs := runFrom_sees isSafe unique shields isKnown fuel place taskSafe typed seen never
    rw [perform_run]
    exact runs
  | _ =>
    have kept := perform_maintains writes called (by rintro body place ⟨⟩) s ⟨rfl, seen.value⟩
    exact kept.value

/-- From a place in a body on, a variable has the same value in all states until the activation is
about to run a statement that writes it. -/
theorem StateUntil.valueIn_eq {first : Point} {s : State} (isSafe : p.Safe known)
    (unique : ToldApart known) (shields : p.Shields v) (isKnown : known v)
    (isState : p.StateUntil limit (fun s => v ∈ s.written) first s)
    (taskSafe : first.task.Safe known p) (typed : first.state.Typed known)
    (seen : first.Sees v first.callers (first.state.valueIn first.callers v)) :
    s.valueIn first.callers v = first.state.valueIn first.callers v := by
  cases isState with
  | here leads =>
    obtain ⟨_, _, seen'⟩ := leads.sees isSafe unique shields isKnown taskSafe typed seen
    exact seen'.value
  | behind leads never =>
    obtain ⟨taskSafe', typed', seen'⟩ :=
      leads.sees isSafe unique shields isKnown taskSafe typed seen
    exact perform_sees isSafe unique shields isKnown taskSafe' typed' seen' never

/-- A step leaves as many calls active as before, or it enters one more. -/
theorem LeadsInto.frames_or_enters {first second : Point} (leads : p.LeadsInto limit first second) :
    second.state.frames.length = first.state.frames.length ∨
      (∃ f values, first.task = .call f values) ∧
        second.state.frames.length = first.state.frames.length + 1 := by
  have kept := leads.maintains (I := fun s => s.frames.length = first.state.frames.length)
    (fun w _ x => Run.write_keepsDepth w x _) (fun n f _ args => p.callee_keepsDepth limit n f args _)
    (fun _ _ same => same) rfl
  rcases kept with same | ⟨f, values, body, isCall, _, _, _, entered⟩
  · exact .inl same
  · exact .inr ⟨⟨f, values, isCall⟩, congrArg (fun s => s.frames.length) entered⟩

theorem LeadsInto.frames {first second : Point} (leads : p.LeadsInto limit first second) :
    second.state.frames.length = first.state.frames.length ∨
      second.state.frames.length = first.state.frames.length + 1 :=
  leads.frames_or_enters.imp_right And.right

/-- At later points as many calls are active as at the first one, or more. -/
theorem frames_le {first later : Point}
    (path : Relation.ReflTransGen (p.LeadsInto limit) first later) :
    first.state.frames.length ≤ later.state.frames.length := by
  induction path with
  | refl => exact Nat.le_refl _
  | tail _ step ih =>
    rcases step.frames with same | more
    · exact same ▸ ih
    · omega

/-- While no more calls are active than at the first point, where a body is run, the run is still
in this body, and what it leaves is what the body leaves. -/
theorem sameActivation {fuel : Nat} {body : Body} {place : Nat} {s : State} {later : Point}
    (path : Relation.ReflTransGen (p.LeadsInto limit) ⟨fuel, .run body place, s⟩ later)
    (depth : later.state.frames.length = s.frames.length) {code : Body} {target : Nat}
    (isRun : later.task = .run code target) :
    code = body ∧ Answer.state (p.perform limit later.fuel later.task later.state) =
      Answer.state (p.perform limit fuel (.run body place) s) := by
  induction path generalizing target code with
  | refl =>
    obtain ⟨rfl, rfl⟩ := Task.run.inj isRun
    exact ⟨rfl, rfl⟩
  | @tail before _ path step ih =>
    have le : s.frames.length ≤ before.state.frames.length := frames_le path
    cases step with
    | @next n code' place' stmt t target' t' get given =>
      obtain ⟨rfl, rfl⟩ := Task.run.inj isRun
      have frames := (LeadsInto.next get given : p.LeadsInto limit _ _).frames
      obtain ⟨rfl, same⟩ := ih (by simp only at depth frames le ⊢; omega) rfl
      refine ⟨rfl, same ▸ ?_⟩
      dsimp only
      rw [perform_run, perform_run, p.runFrom_succ limit n get, given]
      rfl
    | body userMade allowed found =>
      simp only [List.length_cons] at depth le
      omega
    | _ => cases isRun

/-- A run calls only functions that its entry calls, directly or through others. -/
theorem Reaches.callsWithin {fuel : Nat} {globals : Store} {host : Host} {point : Point}
    {P : Fn → Prop} (reached : p.Reaches limit fuel globals host point)
    (entry : ∀ f body, p.entry = some f → p.body? f = some body → ∀ s ∈ body, ∀ g ∈ s.calls, P g)
    (closed : ∀ f body, P f → p.body? f = some body → ∀ s ∈ body, ∀ g ∈ s.calls, P g) :
    point.task.CallsWithin P := by
  obtain ⟨start, ⟨_, f, body, isEntry, found, rfl⟩, path⟩ := reached
  induction path with
  | refl => exact entry f body isEntry found
  | tail _ step ih => exact step.callsWithin closed ih

theorem Reaches.frames_pos {fuel : Nat} {globals : Store} {host : Host} {point : Point}
    (reached : p.Reaches limit fuel globals host point) : 0 < point.state.frames.length := by
  obtain ⟨start, ⟨_, entry, body, _, _, rfl⟩, path⟩ := reached
  exact frames_le path

/-- Where a run is about to go on in a body, the variables of the activation are seen. -/
theorem Reaches.sees {fuel : Nat} {globals : Store} {host : Host} {point : Point}
    (reached : p.Reaches limit fuel globals host point) (shields : p.Shields v) {body : Body}
    {place : Nat} (isRun : point.task = .run body place) :
    point.Sees v point.callers (point.state.valueIn point.callers v) := by
  have some := reached.frames_pos
  have depth : point.callers = point.state.frames.length - 1 := rfl
  have declared := reached.callsWithin (fun _ _ _ found => shields.calls_of_body found)
    fun _ _ _ found => shields.calls_of_body found
  refine ⟨by omega, rfl, fun _ => ?_, fun _ deep => ?_, declared⟩
  · rw [isRun]
    trivial
  · omega

end Program

end

end ScriptLang
