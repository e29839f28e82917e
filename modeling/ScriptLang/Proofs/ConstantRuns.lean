import ScriptLang.Proofs.ChainRuns
import ScriptLang.Proofs.CompiledConstants
import ScriptLang.Proofs.Unfolded

/-! While compiled units run, a variable that has a constant holds it from its declaration on. So
the constant of an expression is what evaluating the expression would give. -/

namespace ScriptLang

/-- A known variable that has a constant has no other value in the store. -/
def Store.HoldsConstants (known : Var → Prop) (store : Store) : Prop :=
  ∀ v, known v → ∀ c, v.constant = some c → ∀ value, store.read? v = some value → value = c

variable {known : Var → Prop}

namespace Store.HoldsConstants

variable {store : Store}

theorem empty : Store.HoldsConstants known .empty := by
  intro v _ c _ value given
  simp [Store.read?] at given

theorem write (apart : ToldApart known) (holds : store.HoldsConstants known) {v : Var}
    {value : Value} (isKnown : known v) (same : ∀ c, v.constant = some c → value = c) :
    (store.write v value).HoldsConstants known := by
  intro w isKnown' c constant found given
  rw [Store.read?_write] at given
  by_cases equal : w.id = v.id
  · rw [if_pos equal] at given
    obtain rfl := apart w v isKnown' isKnown equal
    exact Option.some.inj given ▸ same c constant
  · rw [if_neg equal] at given
    exact holds w isKnown' c constant found given

theorem ofArguments (apart : ToldApart known) {parameters : List Var}
    (isKnown : ∀ p ∈ parameters, known p) (unknown : ∀ p ∈ parameters, p.constant = none)
    (values : List Value) : (Store.ofArguments parameters values).HoldsConstants known := by
  have holds : Store.HoldsConstants known .empty := empty
  unfold Store.ofArguments
  revert holds
  generalize (OrderedMap.empty : Store) = store
  intro holds
  induction parameters generalizing store values with
  | nil => exact holds
  | cons p ps ih =>
    cases values with
    | nil => exact holds
    | cons value values =>
      obtain ⟨first, rest⟩ := List.forall_mem_cons.1 isKnown
      obtain ⟨unknownFirst, unknownRest⟩ := List.forall_mem_cons.1 unknown
      have none (c : Value) (constant : p.constant = some c) : value = c := by
        rw [unknownFirst] at constant
        contradiction
      exact ih rest unknownRest values _ (holds.write apart first none)

end Store.HoldsConstants

def State.HoldsConstants (known : Var → Prop) (s : State) : Prop :=
  ∀ store ∈ s.globals :: s.frames, Store.HoldsConstants known store

namespace State.HoldsConstants

variable {s : State}

theorem shows (holds : s.HoldsConstants known) {vs : List Var} (isKnown : ∀ v ∈ vs, known v) :
    s.ShowsConstants vs := by
  obtain ⟨globals, frames⟩ := List.forall_mem_cons.1 holds
  intro v member c constant value given
  unfold State.read? at given
  split at given
  · exact globals v (isKnown v member) c constant value given
  · obtain ⟨frame, head, given⟩ := Option.bind_eq_some_iff.1 given
    exact frames frame (List.mem_of_mem_head? head) v (isKnown v member) c constant value given

theorem push (holds : s.HoldsConstants known) {frame : Store}
    (frameHolds : frame.HoldsConstants known) :
    State.HoldsConstants known { s with frames := frame :: s.frames } := by
  obtain ⟨globals, frames⟩ := List.forall_mem_cons.1 holds
  exact List.forall_mem_cons.2 ⟨globals, List.forall_mem_cons.2 ⟨frameHolds, frames⟩⟩

theorem pop (holds : s.HoldsConstants known) :
    State.HoldsConstants known { s with frames := s.frames.tail } := by
  obtain ⟨globals, frames⟩ := List.forall_mem_cons.1 holds
  exact List.forall_mem_cons.2
    ⟨globals, fun frame member => frames frame (List.mem_of_mem_tail member)⟩

end State.HoldsConstants

theorem Run.write_holdsConstants (apart : ToldApart known) {v : Var} {value : Value}
    (isKnown : known v) (same : ∀ c, v.constant = some c → value = c) :
    Maintains (State.HoldsConstants known) (Run.write v value) := by
  intro s holds
  obtain ⟨globals, frames⟩ := List.forall_mem_cons.1 holds
  show (s.write v value).HoldsConstants known
  unfold State.write
  by_cases isGlobal : v.isGlobal = true
  · rw [if_pos isGlobal]
    exact List.forall_mem_cons.2 ⟨globals.write apart isKnown same, frames⟩
  · rw [if_neg isGlobal]
    cases equal : s.frames with
    | nil => exact holds
    | cons frame rest =>
      rw [equal] at frames
      obtain ⟨first, others⟩ := List.forall_mem_cons.1 frames
      exact List.forall_mem_cons.2
        ⟨globals, List.forall_mem_cons.2 ⟨first.write apart isKnown same, others⟩⟩

theorem Run.write_spared (apart : ToldApart known) {vs ws : List Var} (among : vs ⊆ ws)
    (isKnown : ∀ v ∈ ws, known v) (spares : ∀ v ∈ vs, v.constant = none) :
    ∀ v ∈ vs, ∀ value, Maintains (State.HoldsConstants known) (Run.write v value) := by
  intro v member value
  apply Run.write_holdsConstants apart (isKnown v (among member))
  intro c constant
  rw [spares v member] at constant
  contradiction

/-- A statement that keeps constants in place leaves them so if the functions that it calls do. -/
theorem Run.stmt_holdsConstants (apart : ToldApart known) {invoke : Invoke} (body : Body)
    (isEntry : Bool) (place : Nat) {s : Stmt} (keeps : s.KeepsConstants)
    (isKnown : ∀ v ∈ s.vars, known v)
    (calls : ∀ f ∈ s.calls, ∀ args, Maintains (State.HoldsConstants known) (f.apply invoke args)) :
    Maintains (State.HoldsConstants known) (Run.stmt invoke body isEntry place s) := by
  have jumps (l : Label) : Maintains (State.HoldsConstants known) (Run.jump body l) := by
    unfold Run.jump
    split
    · exact .pure _
    · exact .fault _
  have spared (e : Expr) (within : e.vars ⊆ s.vars) (spares : ∀ v ∈ e.assigned, v.constant = none) :
      ∀ v ∈ e.assigned, ∀ value, Maintains (State.HoldsConstants known) (Run.write v value) :=
    Run.write_spared apart (fun v member => within (e.assigned_subset_vars member)) isKnown spares
  obtain ⟨assigned, records⟩ := keeps
  cases s with
  | declare v e =>
    have isKnownV := isKnown v List.mem_cons_self
    have writes := spared e (List.subset_cons_self v e.vars) assigned
    cases folded : e.constant? with
    | some value =>
      have same (c : Value) (constant : v.constant = some c) : value = c := by
        rw [records c constant] at folded
        exact (Option.some.inj folded).symm
      simp only [Run.stmt, e.eval_of_constant folded, pure_bind]
      exact .bind (Run.write_holdsConstants apart isKnownV same) fun _ => .pure _
    | none =>
      have none (value c : Value) (constant : v.constant = some c) : value = c := by
        rw [records c constant] at folded
        contradiction
      exact .bind (Expr.eval_maintains writes calls) fun value =>
        .bind (Run.write_holdsConstants apart isKnownV (none value)) fun _ => .pure _
  | expr e =>
    have writes := spared e (List.Subset.refl _) assigned
    refine .bind (Expr.evalAlone_maintains writes calls) fun value => ?_
    dsimp only
    split
    · exact .bind (.modify fun s holds => holds) fun _ => .pure _
    · exact .pure _
  | label l => exact .pure _
  | goto l => exact jumps l
  | gotoIf l c value =>
    have writes := spared c (List.Subset.refl _) assigned
    refine .bind (Expr.eval_maintains writes calls) fun result => ?_
    split
    · split
      · exact jumps l
      · exact .pure _
    · exact .fault _
  | ret value =>
    cases value with
    | none => exact .pure _
    | some e =>
      have writes := spared e (List.Subset.refl _) assigned
      exact .bind (Expr.eval_maintains writes calls) fun value => .pure _
  | _ => exact .fault _

namespace Program

variable {p : Program} (isSafe : p.Safe known) (apart : ToldApart known)
  (keeps : p.KeepsConstants)

include isSafe apart keeps

/-- A call of a function runs its body, or a builtin. -/
theorem callee_holdsConstants {limit : Option Nat} {fuel : Nat}
    (bodies : ∀ f body, (f, body) ∈ p.units.flatten →
      Maintains (State.HoldsConstants known) (p.runFrom limit fuel body 0))
    {f : Fn} (callable : Callable p.units f) (args : List Value) :
    Maintains (State.HoldsConstants known) (f.apply (p.callee limit fuel) args) := by
  unfold Fn.apply
  cases isBuiltin : f.builtin with
  | some b => exact Builtin.run_maintains (fun s host holds => holds) b args
  | none =>
    obtain ⟨body, found, member⟩ := isSafe.found (callable.resolve_left (by simp [isBuiltin]))
    dsimp only
    unfold callee invoke
    refine .get_bind fun s => ?_
    cases s.reached? limit with
    | some n => exact .fault _
    | none =>
      have frame := Store.HoldsConstants.ofArguments apart (isSafe.bodies _ member).parameters
        (keeps _ member).parameters args
      simp only [found]
      exact .inFrame (bodies f body member) (fun s holds => holds.push frame) fun s holds => holds.pop

theorem runFrom_holdsConstants (limit : Option Nat) (fuel : Nat) {f : Fn} {body : Body}
    (member : (f, body) ∈ p.units.flatten) (place : Nat) :
    Maintains (State.HoldsConstants known) (p.runFrom limit fuel body place) := by
  induction fuel generalizing f body place with
  | zero => exact fun s holds => holds
  | succ fuel ih =>
    intro s holds
    cases get : body[place]? with
    | none =>
      rw [p.runFrom_end limit fuel get]
      exact holds
    | some stmt =>
      rw [p.runFrom_succ limit fuel get]
      have within := List.mem_of_getElem? get
      have safe := (isSafe.bodies _ member).body.statements stmt within
      have calls : ∀ g ∈ stmt.calls, ∀ args,
          Maintains (State.HoldsConstants known) (g.apply (p.callee limit fuel) args) :=
        fun g called args => callee_holdsConstants isSafe apart keeps
          (fun h callee isBody => ih isBody 0) (safe.calls g called) args
      have step := Run.stmt_holdsConstants apart body s.inEntry place
        ((keeps _ member).statements stmt within) safe.vars calls s holds
      cases given : Run.stmt (p.callee limit fuel) body s.inEntry place stmt s with
      | ok next t =>
        rw [given] at step
        cases next with
        | goto target => exact ih member target t step
        | ret r => exact step
      | error stop t =>
        rw [given] at step
        exact step

theorem calls_holdConstants (limit : Option Nat) (fuel : Nat) {fs : List Fn}
    (callable : ∀ f ∈ fs, Callable p.units f) : ∀ f ∈ fs, ∀ args,
      Maintains (State.HoldsConstants known) (f.apply (p.callee limit fuel) args) :=
  fun f member args => callee_holdsConstants isSafe apart keeps
    (fun _ _ isBody => runFrom_holdsConstants isSafe apart keeps limit fuel isBody 0)
    (callable f member) args

/-- A run on globals that hold constants leaves such globals. -/
theorem evaluate_holdsConstants {globals : Store} (holds : globals.HoldsConstants known)
    (limit : Option Nat) (fuel : Nat) (host : Host) :
    (p.evaluate limit fuel globals host).globals.HoldsConstants known := by
  have executes : Maintains (State.HoldsConstants known) (p.execute limit fuel) := by
    unfold execute executeWith
    split
    · exact .fault _
    · cases p.entry with
      | none => exact .pure _
      | some e =>
        dsimp only
        cases found : p.body? e with
        | none => exact .fault _
        | some body =>
          obtain ⟨g, member, _⟩ := mem_of_body? found
          have runs := runFrom_holdsConstants isSafe apart keeps limit fuel member 0
          refine .bind (.inFrame runs (fun s holds => holds.push .empty) fun s holds => holds.pop)
            fun value => ?_
          exact .get_bind fun s => .pure _
  have start : State.HoldsConstants known { globals, frames := [], host, last := none } :=
    List.forall_mem_singleton.2 holds
  have behind := executes _ start
  unfold evaluate Run.outcome
  cases given : p.execute limit fuel { globals, frames := [], host, last := none } with
  | ok value t =>
    rw [given] at behind
    exact behind t.globals List.mem_cons_self
  | error stop t =>
    rw [given] at behind
    exact behind t.globals List.mem_cons_self

end Program

end ScriptLang
