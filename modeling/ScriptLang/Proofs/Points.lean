import Mathlib.Logic.Relation
import ScriptLang.Compilation
import ScriptLang.Proofs.FlatRun
import ScriptLang.Proofs.Mentions

/-! A run is about to do one thing after another: to evaluate an expression, to call a
function, to run a body from some place on. `LeadsInto` says which point is the next one
inside what is done at a point, so the states of a run are those at the points that can be
reached from its start, and those in which what is done at such a point ends. -/

namespace ScriptLang

/-- What a run is about to do. -/
inductive Task where
  | eval (e : Expr)
  | args (es : List Expr)
  /-- An expression that stands alone, which may be a call without a value. -/
  | alone (e : Expr)
  | call (f : Fn) (values : List Value)
  | run (body : Body) (place : Nat)

/-- A task, the state in which it is about to be done, and the fuel that is left for it. -/
structure Point where
  fuel : Nat
  task : Task
  state : State

namespace Program

variable (p : Program) (limit : Option Nat)

def perform (fuel : Nat) : Task → Run (List Value)
  | .eval e => do return [← e.eval (p.callee limit fuel)]
  | .args es => Expr.evalArgs (p.callee limit fuel) es
  | .alone e => do return (← e.evalAlone (p.callee limit fuel)).toList
  | .call f values => do return (← f.apply (p.callee limit fuel) values).toList
  | .run body place => do return (← p.runFrom limit fuel body place).toList

/-- The first point comes to the second one: the task there is a part of the task here, and
what comes before it in the same task is done. -/
inductive LeadsInto : Point → Point → Prop
  | assigned {n v e s} : LeadsInto ⟨n, .eval (.assign v e), s⟩ ⟨n, .eval e, s⟩
  | operand {n op e s} (unknown : (Expr.unary op e).constant? = none) :
      LeadsInto ⟨n, .eval (.unary op e), s⟩ ⟨n, .eval e, s⟩
  | left {n l op r s} (unknown : (Expr.binary l op r).constant? = none) :
      LeadsInto ⟨n, .eval (.binary l op r), s⟩ ⟨n, .eval l, s⟩
  | right {n l op r s value t} (unknown : (Expr.binary l op r).constant? = none)
      (first : l.eval (p.callee limit n) s = .ok value t)
      (undecided : op.action.shortCircuit? value = none) :
      LeadsInto ⟨n, .eval (.binary l op r), s⟩ ⟨n, .eval r, t⟩
  | converted {n t e s} (unknown : (Expr.convert t e).constant? = none) :
      LeadsInto ⟨n, .eval (.convert t e), s⟩ ⟨n, .eval e, s⟩
  | callArgs {n f es s} : LeadsInto ⟨n, .eval (.call f es), s⟩ ⟨n, .args es, s⟩
  | call {n f es s values t} (given : Expr.evalArgs (p.callee limit n) es s = .ok values t) :
      LeadsInto ⟨n, .eval (.call f es), s⟩ ⟨n, .call f values, t⟩
  | argument {n e es s} : LeadsInto ⟨n, .args (e :: es), s⟩ ⟨n, .eval e, s⟩
  | arguments {n e es s value t} (first : e.eval (p.callee limit n) s = .ok value t) :
      LeadsInto ⟨n, .args (e :: es), s⟩ ⟨n, .args es, t⟩
  | alone {n e s} (noCall : ∀ f es, e ≠ .call f es) :
      LeadsInto ⟨n, .alone e, s⟩ ⟨n, .eval e, s⟩
  | aloneArgs {n f es s} : LeadsInto ⟨n, .alone (.call f es), s⟩ ⟨n, .args es, s⟩
  | aloneCall {n f es s values t} (given : Expr.evalArgs (p.callee limit n) es s = .ok values t) :
      LeadsInto ⟨n, .alone (.call f es), s⟩ ⟨n, .call f values, t⟩
  | body {n f values s body} (userMade : f.builtin = none) (allowed : s.reached? limit = none)
      (found : p.body? f = some body) :
      LeadsInto ⟨n, .call f values, s⟩
        ⟨n, .run body 0, { s with frames := Store.ofArguments f.parameters values :: s.frames }⟩
  | declared {n body place v e s} (get : body[place]? = some (.declare v e)) :
      LeadsInto ⟨n + 1, .run body place, s⟩ ⟨n, .eval e, s⟩
  | stands {n body place e s} (get : body[place]? = some (.expr e)) :
      LeadsInto ⟨n + 1, .run body place, s⟩ ⟨n, .alone e, s⟩
  | tested {n body place l c value s} (get : body[place]? = some (.gotoIf l c value)) :
      LeadsInto ⟨n + 1, .run body place, s⟩ ⟨n, .eval c, s⟩
  | returned {n body place e s} (get : body[place]? = some (.ret (some e))) :
      LeadsInto ⟨n + 1, .run body place, s⟩ ⟨n, .eval e, s⟩
  | next {n body place stmt s target t} (get : body[place]? = some stmt)
      (given : Run.stmt (p.callee limit n) body s.inEntry place stmt s = .ok (.goto target) t) :
      LeadsInto ⟨n + 1, .run body place, s⟩ ⟨n, .run body target, t⟩

def StartsAt (fuel : Nat) (globals : Store) (host : Host) (start : Point) : Prop :=
  p.diagnostics.hasErrors = false ∧ ∃ entry body, p.entry = some entry ∧ p.body? entry = some body ∧
    start = ⟨fuel, .run body 0, { globals, frames := [.empty], host, last := none }⟩

def Reaches (fuel : Nat) (globals : Store) (host : Host) (point : Point) : Prop :=
  ∃ start, p.StartsAt fuel globals host start ∧
    Relation.ReflTransGen (p.LeadsInto limit) start point

/-- A program without errors that has a body for its entry starts to run there. -/
theorem startsAt {p : Program} (noErrors : p.diagnostics.hasErrors = false)
    (hasBody : (p.entry.bind p.body?).isSome) (fuel : Nat) (globals : Store) (host : Host) :
    p.StartsAt fuel globals host ⟨fuel, .run ((p.entry.bind p.body?).getD []) 0,
      { globals, frames := [.empty], host, last := none }⟩ := by
  obtain ⟨body, found⟩ := Option.isSome_iff_exists.1 hasBody
  obtain ⟨entry, isEntry, isBody⟩ := Option.bind_eq_some_iff.1 found
  refine ⟨noErrors, entry, body, isEntry, isBody, ?_⟩
  rw [found]
  rfl

end Program

/-- The states at a point, and behind the task there. -/
def Program.StateAt (p : Program) (limit : Option Nat) (point : Point) (s : State) : Prop :=
  s = point.state ∨ s = Answer.state (p.perform limit point.fuel point.task point.state)

/-- What a run leaves is what the task at its start leaves. -/
theorem Program.evaluate_of_startsAt {p : Program} {fuel : Nat} {globals : Store} {host : Host}
    {start : Point} (starts : p.StartsAt fuel globals host start) (limit : Option Nat) :
    (p.evaluate limit fuel globals host).globals =
        (Answer.state (p.perform limit start.fuel start.task start.state)).globals ∧
      (p.evaluate limit fuel globals host).host =
        (Answer.state (p.perform limit start.fuel start.task start.state)).host := by
  obtain ⟨noErrors, entry, body, isEntry, found, rfl⟩ := starts
  have executes : p.execute limit fuel =
      Run.inFrame .empty (p.runFrom limit fuel body 0) >>= fun value => do
        return value <|> (← get).last := by
    simp [execute, executeWith, noErrors, isEntry, found]
  unfold evaluate Run.outcome
  rw [executes]
  cases given : p.runFrom limit fuel body 0 { globals, frames := [.empty], host, last := none } with
  | ok value t =>
    have performed : p.perform limit fuel (.run body 0)
        { globals, frames := [.empty], host, last := none } = .ok value.toList t :=
      Run.bind_of_ok _ given
    have framed : Run.inFrame .empty (p.runFrom limit fuel body 0)
        { globals, frames := [], host, last := none } =
          .ok value { t with frames := t.frames.tail } := by
      simp only [Run.inFrame, given]
    rw [performed, Run.bind_of_ok _ framed]
    exact ⟨rfl, rfl⟩
  | error stop t =>
    have performed : p.perform limit fuel (.run body 0)
        { globals, frames := [.empty], host, last := none } = .error stop t :=
      Run.bind_of_error _ given
    have framed : Run.inFrame .empty (p.runFrom limit fuel body 0)
        { globals, frames := [], host, last := none } =
          .error stop { t with frames := t.frames.tail } := by
      simp only [Run.inFrame, given]
    rw [performed, Run.bind_of_error _ framed]
    exact ⟨rfl, rfl⟩

namespace Compilation

inductive Reaches (fuel : Nat) (c : Compilation) (point : Point) :
    Store → Host → List Compilation → Prop
  | here {globals host cs} (reached : c.program.Reaches c.options.maxCallDepth fuel globals host point) :
      Reaches fuel c point globals host (c :: cs)
  | later {globals host d cs} (reached : Reaches fuel c point (d.evaluate fuel globals host).globals
        (d.evaluate fuel globals host).host cs) : Reaches fuel c point globals host (d :: cs)

/-- The point is one of a run of one of the compilations. -/
theorem Reaches.within {fuel : Nat} {c : Compilation} {point : Point} {globals : Store}
    {host : Host} {cs : List Compilation} (reached : Reaches fuel c point globals host cs) :
    c ∈ cs ∧ ∃ globals host, c.program.Reaches c.options.maxCallDepth fuel globals host point := by
  induction reached with
  | here reached => exact ⟨List.mem_cons_self, _, _, reached⟩
  | later _ ih => exact ⟨List.mem_cons_of_mem _ ih.1, ih.2⟩

def HasVar (c : Compilation) (v : Var) : Prop :=
  v ∈ c.declarations.vars ∨ ∃ p ∈ c.program.bodies, v ∈ p.1.parameters ∨ v ∈ Stmt.varsOf p.2

end Compilation

end ScriptLang
