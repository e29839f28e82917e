import ScriptLang.Proofs.ConstantRuns
import ScriptLang.Proofs.FoldedFaults

/-! At every point of a run of compiled units, an expression that is about to be evaluated and
has a constant would have this value without it too, and would change nothing. Of the faults
that it would have, only those of operands that folding leaves out are missing. -/

namespace ScriptLang

def Task.KeepsConstants : Task → Prop
  | .eval e | .alone e => ∀ v ∈ e.assigned, v.constant = none
  | .args es => ∀ v ∈ Expr.assignedOf es, v.constant = none
  | .call _ _ => True
  | .run body _ => ∀ s ∈ body, s.KeepsConstants

variable {known : Var → Prop}

namespace Program

variable {p : Program} (isSafe : p.Safe known) (apart : ToldApart known)
  (keeps : p.KeepsConstants)

include isSafe apart keeps

theorem eval_holdsConstants (limit : Option Nat) (fuel : Nat) {e : Expr}
    (vars : ∀ v ∈ e.vars, known v) (calls : ∀ f ∈ e.calls, Callable p.units f)
    (spares : ∀ v ∈ e.assigned, v.constant = none) :
    Maintains (State.HoldsConstants known) (e.eval (p.callee limit fuel)) :=
  Expr.eval_maintains (Run.write_spared apart e.assigned_subset_vars vars spares)
    (calls_holdConstants isSafe apart keeps limit fuel calls)

theorem evalArgs_holdsConstants (limit : Option Nat) (fuel : Nat) {es : List Expr}
    (vars : ∀ v ∈ Expr.varsOf es, known v) (calls : ∀ f ∈ Expr.callsOf es, Callable p.units f)
    (spares : ∀ v ∈ Expr.assignedOf es, v.constant = none) :
    Maintains (State.HoldsConstants known) (Expr.evalArgs (p.callee limit fuel) es) :=
  Expr.evalArgs_maintains (Run.write_spared apart (Expr.assignedOf_subset_varsOf es) vars spares)
    (calls_holdConstants isSafe apart keeps limit fuel calls)

/-- From a point where constants are held, by a task that leaves them in place, a run comes to
points of the same sort. -/
theorem LeadsInto.holdsConstants {limit : Option Nat} {first second : Point}
    (leads : p.LeadsInto limit first second) (taskSafe : first.task.Safe known p)
    (taskKeeps : first.task.KeepsConstants) (holds : first.state.HoldsConstants known) :
    second.task.KeepsConstants ∧ second.state.HoldsConstants known := by
  have statement {body : Body} {place : Nat} {s : Stmt} (get : body[place]? = some s)
      (bodyKeeps : ∀ s ∈ body, s.KeepsConstants) : s.KeepsConstants :=
    bodyKeeps s (List.mem_of_getElem? get)
  cases leads with
  | assigned => exact ⟨(List.forall_mem_cons.1 taskKeeps).2, holds⟩
  | operand _ | converted _ | callArgs | alone _ | aloneArgs => exact ⟨taskKeeps, holds⟩
  | left _ => exact ⟨(List.forall_mem_append.1 taskKeeps).1, holds⟩
  | @right n l op r s value t _ given _ =>
    obtain ⟨sparesL, sparesR⟩ := List.forall_mem_append.1 taskKeeps
    obtain ⟨_, vars, calls, _⟩ := taskSafe
    have left := eval_holdsConstants isSafe apart keeps limit n (List.forall_mem_append.1 vars).1
      (List.forall_mem_append.1 calls).1 sparesL
    exact ⟨sparesR, left.of_ok holds given⟩
  | @call n f es s values t given =>
    obtain ⟨_, vars, calls, _⟩ := taskSafe
    have args := evalArgs_holdsConstants isSafe apart keeps limit n vars
      (List.forall_mem_cons.1 calls).2 taskKeeps
    exact ⟨trivial, args.of_ok holds given⟩
  | @aloneCall n f es s values t given =>
    obtain ⟨_, vars, calls⟩ := taskSafe
    have args := evalArgs_holdsConstants isSafe apart keeps limit n vars
      (List.forall_mem_cons.1 calls).2 taskKeeps
    exact ⟨trivial, args.of_ok holds given⟩
  | argument => exact ⟨(List.forall_mem_append.1 taskKeeps).1, holds⟩
  | @arguments n e es s value t given =>
    obtain ⟨sparesE, sparesEs⟩ := List.forall_mem_append.1 taskKeeps
    obtain ⟨_, _, vars, calls⟩ := taskSafe
    have head := eval_holdsConstants isSafe apart keeps limit n (List.forall_mem_append.1 vars).1
      (List.forall_mem_append.1 calls).1 sparesE
    exact ⟨sparesEs, head.of_ok holds given⟩
  | @body n f values s code userMade _ found =>
    obtain ⟨_, callable, _⟩ := taskSafe
    obtain ⟨code', found', member⟩ := isSafe.found (callable.resolve_left (by simp [userMade]))
    rw [found] at found'
    obtain rfl := Option.some.inj found'
    have frame := Store.HoldsConstants.ofArguments apart (isSafe.bodies _ member).parameters
      (keeps _ member).parameters values
    exact ⟨(keeps _ member).statements, holds.push frame⟩
  | declared get | stands get | tested get | returned get =>
    exact ⟨(statement get taskKeeps).assigned, holds⟩
  | @next n body place stmt s target t get given =>
    obtain ⟨_, safe⟩ := statement_safe taskSafe get
    have step := Run.stmt_holdsConstants apart body s.inEntry place
      (statement get taskKeeps) safe.vars (calls_holdConstants isSafe apart keeps limit n safe.calls)
    exact ⟨taskKeeps, step.of_ok holds given⟩

/-- A run from typed globals that hold constants comes only to states that hold them. -/
theorem Reaches.holdsConstants {limit : Option Nat} {fuel : Nat} {globals : Store} {host : Host}
    {point : Point} (reached : p.Reaches limit fuel globals host point)
    (typed : globals.Typed known) (holds : globals.HoldsConstants known) :
    point.task.Safe known p ∧ point.task.KeepsConstants ∧ point.state.HoldsConstants known := by
  obtain ⟨start, starts, leads⟩ := reached
  have safe {point : Point} (leads : Relation.ReflTransGen (p.LeadsInto limit) start point) :=
    Program.Reaches.safe isSafe apart ⟨start, starts, leads⟩ typed
  have held : point.task.KeepsConstants ∧ point.state.HoldsConstants known := by
    induction leads with
    | refl =>
      obtain ⟨_, entry, body, _, found, rfl⟩ := starts
      obtain ⟨f, member, _⟩ := mem_of_body? found
      refine ⟨(keeps _ member).statements, ?_⟩
      exact List.forall_mem_cons.2 ⟨holds, List.forall_mem_singleton.2 .empty⟩
    | tail before step ih =>
      exact step.holdsConstants isSafe apart keeps (safe before).1 ih.1 ih.2
  exact ⟨(safe leads).1, held⟩

end Program

namespace Compilation

theorem Reaches.holdsConstants {fuel : Nat} {c : Compilation} {point : Point} {globals : Store}
    {host : Host} {cs : List Compilation} (reached : Reaches fuel c point globals host cs)
    (safe : ∀ d ∈ cs, d.Safe known) (apart : ToldApart known)
    (keeps : ∀ d ∈ cs, d.program.KeepsConstants) (typed : globals.Typed known)
    (holds : globals.HoldsConstants known) :
    point.task.Safe known c.program ∧ point.task.KeepsConstants ∧
      point.state.HoldsConstants known := by
  induction reached with
  | here reached =>
    have head := (safe _ List.mem_cons_self).program
    have keepsHead := keeps _ List.mem_cons_self
    exact Program.Reaches.holdsConstants head apart keepsHead reached typed holds
  | later _ ih =>
    obtain ⟨first, rest⟩ := List.forall_mem_cons.1 safe
    obtain ⟨keepsFirst, keepsRest⟩ := List.forall_mem_cons.1 keeps
    apply ih rest keepsRest (evaluate_keeps first apart typed fuel _).1
    exact Program.evaluate_holdsConstants first.program apart keepsFirst holds _ fuel _

/-- Folded constants are the values that runs compute. While units that were compiled without
errors run in a row, let an expression with a constant be about to be evaluated. If evaluating
it without any constants gives a value there, this value is the constant, and the state is
left as it is: globals, frames and host. -/
theorem chain_folds_to_computed_values (options : Options) (us : List Source.Unit) (next : Nat)
    (noErrors : ∀ c ∈ (chain options us next).1, c.diagnostics.hasErrors = false) (fuel : Nat)
    (host : Host) {c : Compilation} {point : Point}
    (reached : Reaches fuel c point .empty host (chain options us next).1) {e : Expr} {v : Value}
    (isEval : point.task = .eval e) (folded : e.constant? = some v) (invoke : Invoke) {w : Value}
    {t : State} (computed : e.evalUnfolded invoke point.state = .ok w t) :
    w = v ∧ t = point.state := by
  obtain ⟨known, census, safe⟩ := chain_safe options us next noErrors
  have keeps := chain_keepsConstants options us next noErrors
  obtain ⟨taskSafe, _, holds⟩ := reached.holdsConstants safe census.unique keeps .empty .empty
  rw [isEval] at taskSafe
  exact Expr.evalUnfolded_of_constant folded (holds.shows taskSafe.2.1) computed

end Compilation

namespace KnownLimit

open Source

def first : Source.Unit := (Sketch.Unit.place ⟨none, [
  .statement (.declare .letKeyword "limit" none (.literal (.int 2))),
  .statement (.declare .varKeyword "count" none (.literal (.int 1)))]⟩ .start).1

def second : Source.Unit := (Sketch.Unit.place ⟨none, [
  .statement (.declare .varKeyword "beyond" none (.binary
    (.binary (.name "count") .greater (.literal (.int 0))) .ampersandAmpersand
    (.binary (.name "limit") .greater (.literal (.int 5)))))]⟩ .start).1

def early : Compilation × Nat := Compilation.compile .standard first 0

def late : Compilation × Nat := early.1.continueWith second early.2

def callee : Invoke := late.1.program.callee late.1.options.maxCallDepth 99

def declared? : Body → Option Expr
  | .declare _ e :: _ => some e
  | _ => none

theorem exists_declare {body : Body} {e : Expr} (given : declared? body = some e) :
    ∃ v, body[0]? = some (.declare v e) := by
  unfold declared? at given
  split at given
  · obtain rfl := Option.some.inj given
    exact ⟨_, rfl⟩
  · contradiction

def body : Body := (late.1.program.entry.bind late.1.program.body?).getD []

def state : State :=
  let before := early.1.evaluate 100 .empty .empty
  { globals := before.globals, frames := [.empty], host := before.host, last := none }

theorem reaches_declared {e : Expr} (given : declared? body = some e) :
    Compilation.Reaches 100 late.1 ⟨99, .eval e, state⟩ .empty .empty
      (Compilation.chain .standard [first, second] 0).1 := by
  have noErrors : late.1.program.diagnostics.hasErrors = false := by decide +kernel
  have hasBody : (late.1.program.entry.bind late.1.program.body?).isSome := by decide +kernel
  have starts := Program.startsAt noErrors hasBody 100 state.globals state.host
  obtain ⟨v, get⟩ := exists_declare given
  rw [Compilation.chain_pair]
  apply Compilation.Reaches.later
  apply Compilation.Reaches.here
  exact ⟨⟨100, .run body 0, state⟩, starts, .single (.declared get)⟩

end KnownLimit

/-- The second unit stores a constant that follows from one of the first unit, although the
value of the other operand is not known. -/
theorem knownLimit_folds :
    ∃ e, KnownLimit.declared? KnownLimit.body = some e ∧ e.constant? = some (.bool false) ∧
      e.evalUnfolded KnownLimit.callee KnownLimit.state = .ok (.bool false) KnownLimit.state := by
  have noErrors : ∀ c ∈ (Compilation.chain .standard [KnownLimit.first, KnownLimit.second] 0).1,
      c.diagnostics.hasErrors = false := by decide +kernel
  have known : (KnownLimit.declared? KnownLimit.body).bind Expr.constant? =
      some (.bool false) := by decide +kernel
  have completes : ((KnownLimit.declared? KnownLimit.body).bind fun e =>
      Answer.value? (e.evalUnfolded KnownLimit.callee KnownLimit.state)).isSome := by decide +kernel
  obtain ⟨e, given, folded⟩ := Option.bind_eq_some_iff.1 known
  rw [given] at completes
  cases computed : e.evalUnfolded KnownLimit.callee KnownLimit.state with
  | error stop t => simp [Answer.value?, computed] at completes
  | ok w t =>
    obtain ⟨rfl, rfl⟩ := Compilation.chain_folds_to_computed_values .standard
      [KnownLimit.first, KnownLimit.second] 0 noErrors 100 .empty
      (KnownLimit.reaches_declared given) rfl folded KnownLimit.callee computed
    exact ⟨e, given, folded, computed⟩

namespace Compilation

/-- While units that were compiled without errors run in a row, an expression that is about to be
evaluated has every fault that it would have without constants, but for those of operands that
folding leaves out. -/
theorem chain_hides_only_dropped_faults (options : Options) (us : List Source.Unit) (next : Nat)
    (noErrors : ∀ c ∈ (chain options us next).1, c.diagnostics.hasErrors = false) (fuel : Nat)
    (host : Host) {c : Compilation} {point : Point}
    (reached : Reaches fuel c point .empty host (chain options us next).1) {e : Expr}
    (isEval : point.task = .eval e) {f : Fault} {t : State} (noDefect : ∀ d, f ≠ .defect d)
    (faults : e.evalUnfolded (c.program.callee c.options.maxCallDepth point.fuel) point.state =
      .error (.fault f) t) :
    e.eval (c.program.callee c.options.maxCallDepth point.fuel) point.state =
        .error (.fault f) t ∨
      ∃ l ∈ e.dropped, l.evalUnfolded (c.program.callee c.options.maxCallDepth point.fuel) t =
        .error (.fault f) t := by
  obtain ⟨known, census, safe⟩ := chain_safe options us next noErrors
  have keeps := chain_keepsConstants options us next noErrors
  obtain ⟨taskSafe, taskKeeps, holds⟩ :=
    reached.holdsConstants safe census.unique keeps .empty .empty
  rw [isEval] at taskSafe taskKeeps
  obtain ⟨_, vars, calls, _⟩ := taskSafe
  have called := Program.calls_holdConstants (safe c reached.within.1).program census.unique
    (keeps c reached.within.1) c.options.maxCallDepth point.fuel calls
  have agrees := Expr.eval_agrees (fun s holds => State.HoldsConstants.shows holds vars)
    (List.Subset.refl _) (Run.write_spared census.unique e.assigned_subset_vars vars taskKeeps)
    called holds
  exact agrees.faults noDefect faults

end Compilation

end ScriptLang
