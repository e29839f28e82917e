import ScriptLang.Proofs.Points
import ScriptLang.Proofs.RunSafe
import ScriptLang.Source.Sketch

/-! Units that are compiled without errors one after another run without defects, but for
variables without a value, and all that they compute and store has the type it should have. -/

namespace ScriptLang

/-- The task can be done without defects in any typed state. -/
def Task.Safe (known : Var → Prop) (p : Program) : Task → Prop
  | .eval e => e.WellTyped (fun _ => True) ∧ (∀ v ∈ e.vars, known v) ∧
      (∀ f ∈ e.calls, Callable p.units f) ∧ ∀ f es, e = .call f es → f.returns ≠ .void
  | .args es => ∃ ps, Expr.ArgsFit (fun _ => True) es ps ∧ (∀ v ∈ Expr.varsOf es, known v) ∧
      ∀ f ∈ Expr.callsOf es, Callable p.units f
  | .alone e => e.WellTyped (fun _ => True) ∧ (∀ v ∈ e.vars, known v) ∧
      ∀ f ∈ e.calls, Callable p.units f
  | .call f values => f.WellTyped ∧ Callable p.units f ∧ FitsAll f.parameters values
  | .run body place => ∃ f, FnSafe known (Callable p.units) (f, body) ∧
      Relation.ReflTransGen body.LeadsTo 0 place

namespace Program

variable {known : Var → Prop} {p : Program} {limit : Option Nat}

theorem typed_of_ok {α : Type} {x : Run α} {P : α → Prop} (keeps : Keeps known x P) {s t : State}
    (typed : s.Typed known) {a : α} (given : x s = .ok a t) : t.Typed known ∧ P a := by
  have ends := keeps s typed
  rw [given] at ends
  exact ends

/-- A statement of a body that is safe to run is safe. -/
theorem statement_safe {body : Body} {place : Nat} {s : Stmt}
    (taskSafe : (Task.run body place).Safe known p) (get : body[place]? = some s) :
    ∃ returns, s.Safe known (Callable p.units) returns := by
  obtain ⟨f, fnSafe, _⟩ := taskSafe
  exact ⟨f.returns, fnSafe.body.statements s (List.mem_of_getElem? get)⟩

section

variable (isSafe : p.Safe known) (unique : ToldApart known)

include isSafe unique

theorem calls_keep (limit : Option Nat) (fuel : Nat) :
    CallsKeep known (Callable p.units) (p.callee limit fuel) :=
  callee_keeps isSafe unique fun _ _ fnSafe => runFrom_keeps isSafe unique fuel fnSafe .refl

theorem perform_keeps (limit : Option Nat) (fuel : Nat) {task : Task}
    (taskSafe : task.Safe known p) : Keeps known (p.perform limit fuel task) fun _ => True := by
  have invokes := calls_keep isSafe unique limit fuel
  cases task with
  | eval e =>
    obtain ⟨typed, vars, calls, hasValue⟩ := taskSafe
    exact (Expr.eval_keeps invokes typed vars calls hasValue).bind fun _ _ => .pure trivial
  | args es =>
    obtain ⟨ps, fit, vars, calls⟩ := taskSafe
    exact (Expr.evalArgs_keeps invokes fit vars calls).mono fun _ _ => trivial
  | alone e =>
    obtain ⟨typed, vars, calls⟩ := taskSafe
    exact (Expr.evalAlone_keeps invokes typed vars calls).bind fun _ _ => .pure trivial
  | call f values =>
    obtain ⟨typed, callable, fit⟩ := taskSafe
    exact (Fn.apply_keeps invokes typed callable fit).bind fun _ _ => .pure trivial
  | run body place =>
    obtain ⟨f, fnSafe, path⟩ := taskSafe
    exact (runFrom_keeps isSafe unique fuel fnSafe path).bind fun _ _ => .pure trivial

/-- The states at a safe point in a typed state, and behind it, are typed. -/
theorem StateAt.typed {point : Point} {s : State} (isState : p.StateAt limit point s)
    (taskSafe : point.task.Safe known p) (typed : point.state.Typed known) : s.Typed known := by
  rcases isState with rfl | rfl
  · exact typed
  · have keeps := perform_keeps isSafe unique limit point.fuel taskSafe point.state typed
    cases given : p.perform limit point.fuel point.task point.state with
    | ok values t =>
      rw [given] at keeps
      exact keeps.1
    | error stop t =>
      rw [given] at keeps
      exact keeps.1

/-- Arguments that fit leave a state in which the function can be called with their values. -/
theorem call_safe {fuel : Nat} {f : Fn} {es : List Expr} (wellTyped : f.WellTyped)
    (fit : Expr.ArgsFit (fun _ => True) es f.parameters) (vars : ∀ v ∈ Expr.varsOf es, known v)
    (calls : ∀ g ∈ f :: Expr.callsOf es, Callable p.units g) {s t : State}
    (typed : s.Typed known) {values : List Value}
    (given : Expr.evalArgs (p.callee limit fuel) es s = .ok values t) :
    (Task.call f values).Safe known p ∧ t.Typed known := by
  obtain ⟨callable, callsArgs⟩ := List.forall_mem_cons.1 calls
  obtain ⟨typed', fits⟩ := typed_of_ok
    (Expr.evalArgs_keeps (calls_keep isSafe unique limit fuel) fit vars callsArgs) typed given
  exact ⟨⟨wellTyped, callable, fits⟩, typed'⟩

/-- A safe task in a typed state leads into safe tasks in typed states. -/
theorem LeadsInto.safe {first second : Point} (leads : p.LeadsInto limit first second)
    (taskSafe : first.task.Safe known p) (typed : first.state.Typed known) :
    second.task.Safe known p ∧ second.state.Typed known := by
  cases leads with
  | assigned =>
    obtain ⟨⟨_, _, _, notVoid, inner⟩, vars, calls, _⟩ := taskSafe
    exact ⟨⟨inner, (List.forall_mem_cons.1 vars).2, calls, Expr.not_void_call notVoid⟩, typed⟩
  | operand _ =>
    obtain ⟨⟨member, same, inner⟩, vars, calls, _⟩ := taskSafe
    have notVoid := UnaryOp.operand_ne_void member
    exact ⟨⟨inner, vars, calls, Expr.not_void_call (same ▸ notVoid)⟩, typed⟩
  | left _ =>
    obtain ⟨⟨member, ⟨same, inner⟩, _⟩, vars, calls, _⟩ := taskSafe
    have notVoid := (BinaryOp.operands_ne_void member).1
    exact ⟨⟨inner, (List.forall_mem_append.1 vars).1, (List.forall_mem_append.1 calls).1,
      Expr.not_void_call (same ▸ notVoid)⟩, typed⟩
  | right _ given _ =>
    obtain ⟨⟨member, ⟨same, inner⟩, same', inner'⟩, vars, calls, _⟩ := taskSafe
    have notVoid := BinaryOp.operands_ne_void member
    have done := typed_of_ok (Expr.eval_keeps (calls_keep isSafe unique limit _) inner
      (List.forall_mem_append.1 vars).1 (List.forall_mem_append.1 calls).1
      (Expr.not_void_call (same ▸ notVoid.1))) typed given
    exact ⟨⟨inner', (List.forall_mem_append.1 vars).2, (List.forall_mem_append.1 calls).2,
      Expr.not_void_call (same' ▸ notVoid.2)⟩, done.1⟩
  | converted _ =>
    obtain ⟨⟨_, _, notVoid, inner⟩, vars, calls, _⟩ := taskSafe
    exact ⟨⟨inner, vars, calls, Expr.not_void_call notVoid⟩, typed⟩
  | callArgs =>
    obtain ⟨⟨_, fit⟩, vars, calls, _⟩ := taskSafe
    exact ⟨⟨_, fit, vars, (List.forall_mem_cons.1 calls).2⟩, typed⟩
  | call given =>
    obtain ⟨⟨wellTyped, fit⟩, vars, calls, _⟩ := taskSafe
    exact call_safe isSafe unique wellTyped fit vars calls typed given
  | argument =>
    obtain ⟨ps, fit, vars, calls⟩ := taskSafe
    cases ps with
    | nil => exact fit.elim
    | cons p' ps =>
      obtain ⟨⟨_, notVoid, inner⟩, _⟩ := fit
      exact ⟨⟨inner, (List.forall_mem_append.1 vars).1, (List.forall_mem_append.1 calls).1,
        Expr.not_void_call notVoid⟩, typed⟩
  | arguments given =>
    obtain ⟨ps, fit, vars, calls⟩ := taskSafe
    cases ps with
    | nil => exact fit.elim
    | cons p' ps =>
      obtain ⟨⟨_, notVoid, inner⟩, rest⟩ := fit
      have done := typed_of_ok (Expr.eval_keeps (calls_keep isSafe unique limit _) inner
        (List.forall_mem_append.1 vars).1 (List.forall_mem_append.1 calls).1
        (Expr.not_void_call notVoid)) typed given
      exact ⟨⟨ps, rest, (List.forall_mem_append.1 vars).2, (List.forall_mem_append.1 calls).2⟩,
        done.1⟩
  | alone noCall =>
    obtain ⟨inner, vars, calls⟩ := taskSafe
    exact ⟨⟨inner, vars, calls, fun f es isCall => absurd isCall (noCall f es)⟩, typed⟩
  | aloneArgs =>
    obtain ⟨⟨_, fit⟩, vars, calls⟩ := taskSafe
    exact ⟨⟨_, fit, vars, (List.forall_mem_cons.1 calls).2⟩, typed⟩
  | aloneCall given =>
    obtain ⟨⟨wellTyped, fit⟩, vars, calls⟩ := taskSafe
    exact call_safe isSafe unique wellTyped fit vars calls typed given
  | body userMade _ found =>
    obtain ⟨_, callable, fits⟩ := taskSafe
    obtain ⟨body', found', fnSafe⟩ := isSafe.body? (callable.resolve_left (by simp [userMade]))
    rw [found] at found'
    obtain rfl := Option.some.inj found'
    exact ⟨⟨_, fnSafe, .refl⟩, typed.push (.ofArguments fnSafe.parameters fits)⟩
  | declared get =>
    obtain ⟨_, _, typedS, vars, calls⟩ := statement_safe taskSafe get
    exact ⟨⟨typedS.2.wellTyped, (List.forall_mem_cons.1 vars).2, calls,
      Expr.not_void_call typedS.2.hasValue⟩, typed⟩
  | stands get =>
    obtain ⟨_, _, typedS, vars, calls⟩ := statement_safe taskSafe get
    exact ⟨⟨typedS, vars, calls⟩, typed⟩
  | tested get =>
    obtain ⟨_, _, typedS, vars, calls⟩ := statement_safe taskSafe get
    exact ⟨⟨typedS.wellTyped, vars, calls, Expr.not_void_call typedS.hasValue⟩, typed⟩
  | returned get =>
    obtain ⟨_, _, ⟨t, _, fits⟩, vars, calls⟩ := statement_safe taskSafe get
    exact ⟨⟨fits.wellTyped, vars, calls, Expr.not_void_call fits.hasValue⟩, typed⟩
  | next get given =>
    obtain ⟨f, fnSafe, path⟩ := taskSafe
    obtain ⟨typed', leads⟩ := typed_of_ok
      (Run.stmt_keeps (calls_keep isSafe unique limit _) fnSafe.body _ get) typed given
    exact ⟨⟨f, fnSafe, path.tail leads⟩, typed'⟩

/-- A run from typed globals comes only to safe tasks in typed states. -/
theorem Reaches.safe {fuel : Nat} {globals : Store} {host : Host} {point : Point}
    (reached : p.Reaches limit fuel globals host point) (typed : globals.Typed known) :
    point.task.Safe known p ∧ point.state.Typed known := by
  obtain ⟨start, ⟨_, entry, body, _, found, rfl⟩, leads⟩ := reached
  induction leads with
  | refl =>
    obtain ⟨f, member, _⟩ := mem_of_body? found
    refine ⟨⟨f, isSafe.bodies _ member, .refl⟩, typed, ?_⟩
    intro frame within
    rw [List.mem_singleton.1 within]
    exact .empty
  | tail _ step ih => exact step.safe isSafe unique ih.1 ih.2

end

end Program

namespace Compilation

variable {known : Var → Prop}

theorem evaluate_keeps {c : Compilation} (safe : c.Safe known)
    (unique : ToldApart known) {globals : Store} (typed : globals.Typed known) (fuel : Nat)
    (host : Host) :
    (c.evaluate fuel globals host).globals.Typed known ∧
      ∀ stop, (c.evaluate fuel globals host).result = .error stop → stop.Allowed :=
  Program.evaluate_keeps safe.program unique typed fuel host

theorem evaluateAll_keeps {cs : List Compilation} (safe : ∀ c ∈ cs, c.Safe known)
    (unique : ToldApart known) {globals : Store} (typed : globals.Typed known) (fuel : Nat)
    (host : Host) :
    ∀ out ∈ evaluateAll fuel globals host cs, out.globals.Typed known ∧
      ∀ stop, out.result = .error stop → stop.Allowed := by
  induction cs generalizing globals host with
  | nil => exact fun _ member => absurd member List.not_mem_nil
  | cons c cs ih =>
    obtain ⟨first, rest⟩ := List.forall_mem_cons.1 safe
    have head := evaluate_keeps first unique typed fuel host
    exact List.forall_mem_cons.2 ⟨head, ih rest head.1 _⟩

theorem Reaches.safe {fuel : Nat} {c : Compilation} {point : Point} {globals : Store} {host : Host}
    {cs : List Compilation} (reached : Reaches fuel c point globals host cs)
    (safe : ∀ d ∈ cs, d.Safe known) (unique : ToldApart known) (typed : globals.Typed known) :
    c.Safe known ∧ point.task.Safe known c.program ∧ point.state.Typed known := by
  induction reached with
  | here reached =>
    have head := safe _ List.mem_cons_self
    exact ⟨head, Program.Reaches.safe head.program unique reached typed⟩
  | later _ ih =>
    obtain ⟨first, rest⟩ := List.forall_mem_cons.1 safe
    exact ih rest (evaluate_keeps first unique typed fuel _).1

theorem Safe.hasVar {c : Compilation} (safe : c.Safe known) {v : Var} (has : c.HasVar v) :
    known v := by
  rcases has with declared | ⟨p, member, isVar⟩
  · exact safe.declared v declared
  · have fnSafe := safe.program.bodies p (List.mem_append_left _ member)
    rcases isVar with isParameter | inBody
    · exact fnSafe.parameters v isParameter
    · obtain ⟨s, within, mentions⟩ := Stmt.exists_of_mem_varsOf inBody
      exact (fnSafe.body.statements s within).vars v mentions

/-- While units that were compiled without errors run in a row, from no globals and with any
host and any limit of calls, the only defect they meet is a variable without a value. -/
theorem chain_meets_no_defect (options : Options) (us : List Source.Unit) (next : Nat)
    (noErrors : ∀ c ∈ (chain options us next).1, c.diagnostics.hasErrors = false) (fuel : Nat)
    (host : Host) :
    ∀ out ∈ evaluateAll fuel .empty host (chain options us next).1,
      ∀ d, out.result = .error (.fault (.defect d)) → ∃ name, d = .unassigned name := by
  obtain ⟨known, census, safe⟩ := chain_safe options us next noErrors
  intro out member d isDefect
  exact (evaluateAll_keeps safe census.unique .empty fuel host out member).2 _ isDefect d rfl

end Compilation

namespace LateLimit

open Source

def first : Source.Unit := (Sketch.Unit.place ⟨none, [
  .function ⟨"show", [], none, [.expr (.call "print" [.name "limit"])]⟩,
  .statement (.expr (.call "show" [])),
  .statement (.declare .varKeyword "limit" none (.literal (.int 2)))]⟩ .start).1

def second : Source.Unit := (Sketch.Unit.place ⟨none, [
  .statement (.expr (.assign "limit" .equals (.literal (.int 3)))),
  .statement (.expr (.call "show" []))]⟩ .start).1

end LateLimit

/-- The first unit stops at the variable without a value, and the second one prints it. -/
theorem lateLimit_meets_no_defect :
    (Compilation.evaluateAll 100 .empty .empty
      (Compilation.chain .standard [LateLimit.first, LateLimit.second] 0).1).map (·.host.printed) =
        [[], ["3"]] ∧
    ∀ out ∈ Compilation.evaluateAll 100 .empty .empty
      (Compilation.chain .standard [LateLimit.first, LateLimit.second] 0).1,
      ∀ d, out.result = .error (.fault (.defect d)) → ∃ name, d = .unassigned name :=
  ⟨by decide +kernel, Compilation.chain_meets_no_defect .standard
    [LateLimit.first, LateLimit.second] 0 (by decide +kernel) 100 .empty⟩

namespace Compilation

/-- While units that were compiled without errors run in a row, what is stored for a variable
has its type, an expression gives a value of its type, and a call of a function that
returns something gives a value of the type it returns. -/
theorem chain_preserves_types (options : Options) (us : List Source.Unit) (next : Nat)
    (noErrors : ∀ c ∈ (chain options us next).1, c.diagnostics.hasErrors = false) (fuel : Nat)
    (host : Host) {c : Compilation} {point : Point}
    (reached : Reaches fuel c point .empty host (chain options us next).1) :
    (∀ d ∈ (chain options us next).1, ∀ v, d.HasVar v →
      ∀ s, c.program.StateAt c.options.maxCallDepth point s →
        ∀ store ∈ s.globals :: s.frames, ∀ value, Store.read? store v = some value →
          value.HasType v.ty) ∧
    (∀ e value t, point.task = .eval e →
      e.eval (c.program.callee c.options.maxCallDepth point.fuel) point.state = .ok value t →
        value.HasType e.ty) ∧
    (∀ f args r t, point.task = .call f args → f.returns ≠ .void →
      f.apply (c.program.callee c.options.maxCallDepth point.fuel) args point.state = .ok r t →
        ∃ value, r = some value ∧ value.HasType f.returns) := by
  obtain ⟨known, census, safe⟩ := chain_safe options us next noErrors
  obtain ⟨cSafe, taskSafe, typed⟩ := reached.safe safe census.unique .empty
  have invokes := Program.calls_keep cSafe.program census.unique c.options.maxCallDepth point.fuel
  refine ⟨?_, ?_, ?_⟩
  · intro d member v has s isState
    have isKnown := (safe d member).hasVar has
    have stateTyped := isState.typed cSafe.program census.unique taskSafe typed
    exact List.forall_mem_cons.2
      ⟨fun value => stateTyped.globals.read census.unique isKnown,
        fun frame within value => (stateTyped.frames frame within).read census.unique isKnown⟩
  · intro e value t isEval given
    rw [isEval] at taskSafe
    obtain ⟨wellTyped, vars, calls, hasValue⟩ := taskSafe
    exact (Program.typed_of_ok (Expr.eval_keeps invokes wellTyped vars calls hasValue) typed given).2
  · intro f args r t isCall notVoid given
    rw [isCall] at taskSafe
    obtain ⟨wellTyped, callable, fit⟩ := taskSafe
    exact (Program.typed_of_ok (Fn.apply_keeps invokes wellTyped callable fit) typed given).2 notVoid

theorem chain_single (options : Options) (u : Source.Unit) (next : Nat) :
    (chain options [u] next).1 = [(compile options u next).1] := rfl

theorem chain_pair (options : Options) (u v : Source.Unit) (next : Nat) :
    (chain options [u, v] next).1 =
      [(compile options u next).1,
        ((compile options u next).1.continueWith v (compile options u next).2).1] := by
  cases first : compile options u next with
  | mk c between =>
    cases second : c.continueWith v between with
    | mk d after =>
      simp only [chain, continueAll, bind, StateT.bind, first, second]
      rfl

end Compilation

namespace LateLimit

def early : Compilation × Nat := Compilation.compile .standard first 0

def late : Compilation × Nat := early.1.continueWith second early.2

theorem chain_eq : (Compilation.chain .standard [first, second] 0).1 = [early.1, late.1] :=
  Compilation.chain_pair .standard first second 0

def start : Point :=
  let before := early.1.evaluate 100 .empty .empty
  ⟨100, .run ((late.1.program.entry.bind late.1.program.body?).getD []) 0,
    { globals := before.globals, frames := [.empty], host := before.host, last := none }⟩

def final : State :=
  Answer.state
    (late.1.program.perform late.1.options.maxCallDepth start.fuel start.task start.state)

theorem reaches_start :
    Compilation.Reaches 100 late.1 start .empty .empty
      (Compilation.chain .standard [first, second] 0).1 := by
  have noErrors : late.1.program.diagnostics.hasErrors = false := by decide +kernel
  have hasBody : (late.1.program.entry.bind late.1.program.body?).isSome := by decide +kernel
  have starts : late.1.program.StartsAt 100 (early.1.evaluate 100 .empty .empty).globals
      (early.1.evaluate 100 .empty .empty).host start :=
    Program.startsAt noErrors hasBody 100 _ _
  rw [chain_eq]
  apply Compilation.Reaches.later
  apply Compilation.Reaches.here
  exact ⟨start, starts, .refl⟩

end LateLimit

/-- What the second unit leaves for `limit` is an integer. -/
theorem lateLimit_preserves_types :
    Compilation.Reaches 100 LateLimit.late.1 LateLimit.start .empty .empty
      (Compilation.chain .standard [LateLimit.first, LateLimit.second] 0).1 ∧
    ∃ v ∈ LateLimit.early.1.declarations.vars, v.ty = .int ∧
      ∃ value, Store.read? LateLimit.final.globals v = some value ∧ value.HasType v.ty := by
  have noErrors : ∀ c ∈ (Compilation.chain .standard [LateLimit.first, LateLimit.second] 0).1,
      c.diagnostics.hasErrors = false := by decide +kernel
  have reached := LateLimit.reaches_start
  have among : LateLimit.early.1 ∈
      (Compilation.chain .standard [LateLimit.first, LateLimit.second] 0).1 := by
    rw [LateLimit.chain_eq]
    exact List.mem_cons_self
  have stored : ∃ v ∈ LateLimit.early.1.declarations.vars, v.ty = .int ∧
      (Store.read? LateLimit.final.globals v).isSome := by decide +kernel
  obtain ⟨v, declared, isInt, isStored⟩ := stored
  obtain ⟨value, found⟩ := Option.isSome_iff_exists.1 isStored
  have isState : LateLimit.late.1.program.StateAt LateLimit.late.1.options.maxCallDepth
      LateLimit.start LateLimit.final := .inr rfl
  have preserved := Compilation.chain_preserves_types .standard [LateLimit.first, LateLimit.second]
    0 noErrors 100 .empty reached
  have typed := preserved.1 LateLimit.early.1 among v (.inl declared) LateLimit.final isState
    LateLimit.final.globals List.mem_cons_self value found
  exact ⟨reached, v, declared, isInt, value, found, typed⟩

end ScriptLang
