import ScriptLang.Lowering
import ScriptLang.Proofs.Mentions

/-! What structured statements mean without labels and jumps: a loop makes its passes, and a
`break` or `continue` is an ending that travels outward to the loop it belongs to.
Expressions are evaluated as in flat code. Fuel bounds the passes of each loop and the
depth of calls. -/

namespace ScriptLang

inductive Ending where
  | next
  | jump (target : Label)
  | ret (value : Option Value)
  deriving DecidableEq

/-- What a loop does after its body ended: it goes on, or it ends in turn. -/
def LoopLabels.after? (labels : LoopLabels) : Ending → Option Ending
  | .next => none
  | .jump l =>
    if l.id = labels.onContinue.id then none
    else if l.id = labels.onBreak.id then some .next
    else some (.jump l)
  | .ret value => some (.ret value)

namespace Run

def test (invoke : Invoke) (c : Expr) : Run Bool := do
  match ← c.eval invoke with
  | .bool b => return b
  | value => defect (.conditionNotBool value)

def store (invoke : Invoke) (v : Var) (e : Expr) : Run PUnit := do
  write v (← e.eval invoke)

def loop {α : Type} (pass : Run (Option α)) : (fuel : Nat) → Run α
  | 0 => throw .outOfFuel
  | fuel + 1 => do
    match ← pass with
    | some a => return a
    | none => loop pass fuel

end Run

def Expr.increment (v : Var) : Expr :=
  .assign v (.binary (.var v) .intAddition (.literal (.int 1)))

structure Activation where
  invoke : Invoke
  /-- The body is the one that the program started with. -/
  isEntry : Bool
  /-- The step of a `for` loop counts as an expression that stood alone. -/
  stepCounts : Bool
  /-- How many passes a loop may make. -/
  fuel : Nat

namespace Stmt

mutual

def exec (a : Activation) : Stmt → Run Ending
  | block body => execAll a body
  | declare v e => do
    Run.store a.invoke v e
    return .next
  | ifThen c t => do
    if ← Run.test a.invoke c then t.exec a else return .next
  | ifElse c t e => do
    if ← Run.test a.invoke c then t.exec a else e.exec a
  | whileDo c body labels =>
    Run.loop (do
      if ← Run.test a.invoke c then return labels.after? (← body.exec a)
      else return some .next) a.fuel
  | doWhile body c labels =>
    Run.loop (do
      match labels.after? (← body.exec a) with
      | some ending => return some ending
      | none => if ← Run.test a.invoke c then return none else return some .next) a.fuel
  | forIn v range body labels => do
    Run.store a.invoke v range.bounds.1
    let upper ← range.bounds.2.eval a.invoke
    Run.loop (do
      if ← Run.test a.invoke (.binary (.var v) .intLessOrEquals (.literal upper)) then
        match labels.after? (← body.exec a) with
        | some ending => return some ending
        | none =>
          if ← Run.test a.invoke (.binary (.var v) .intEquals (.literal upper)) then
            return some .next
          else
            let value ← (Expr.increment v).eval a.invoke
            if a.isEntry && a.stepCounts then modify fun s => { s with last := some value }
            return none
      else return some .next) a.fuel
  | label _ => return .next
  | goto l => return .jump l
  | gotoIf l c value => do
    if (← Run.test a.invoke c) = value then return .jump l else return .next
  | ret none => return .ret none
  | ret (some e) => do return .ret (some (← e.eval a.invoke))
  | expr e => do
    let value ← e.evalAlone a.invoke
    if a.isEntry then modify fun s => { s with last := value }
    return .next

/-- Runs statements in a row, up to the first that does not lead to the next one. -/
def execAll (a : Activation) : List Stmt → Run Ending
  | [] => return .next
  | s :: ss => do
    match ← s.exec a with
    | .next => execAll a ss
    | ending => return ending

end

end Stmt

/-- Runs a body. A jump to a label of no loop around it leads nowhere. -/
def Body.exec (a : Activation) (body : Body) : Run (Option Value) := do
  match ← Stmt.execAll a body with
  | .next => return none
  | .jump l => Run.defect (.undefinedLabel l)
  | .ret value => return value

namespace Program

def runStructured (p : Program) (stepCounts : Bool) (limit : Option Nat) :
    (fuel : Nat) → Body → Run (Option Value)
  | 0, _ => throw .outOfFuel
  | fuel + 1, body => fun s =>
    let invoke := p.invoke limit (p.runStructured stepCounts limit fuel)
    body.exec { invoke, isEntry := s.inEntry, stepCounts, fuel := fuel + 1 } s

def evaluateStructured (p : Program) (stepCounts : Bool) (limit : Option Nat) (fuel : Nat)
    (globals : Store) (host : Host) : Outcome :=
  (p.executeWith (p.runStructured stepCounts limit fuel)).outcome globals host

end Program

def Bodies.lower (bodies : Bodies) : Fresh Bodies :=
  bodies.mapM fun (f, body) => do return (f, ← body.lower f.returns)

def Program.lower (p : Program) : Fresh Program := do
  let bodies ← p.bodies.lower
  return { p with bodies, earlier := ← p.earlier.mapM Bodies.lower }

def Label.Targets (l : Label) (enclosing : List LoopLabels) : Prop :=
  ∃ k ∈ enclosing, l.id = k.onBreak.id ∨ l.id = k.onContinue.id

mutual

/-- A statement as binding makes it: jumps lead to loops around them, and the range of a
`for` loop has two bounds. -/
def Stmt.IsStructured (enclosing : List LoopLabels) : Stmt → Prop
  | .block body => Stmt.AllStructured enclosing body
  | .declare _ _ | .ret _ | .expr _ => True
  | .ifThen _ t => t.IsStructured enclosing
  | .ifElse _ t e => t.IsStructured enclosing ∧ e.IsStructured enclosing
  | .whileDo _ body l | .doWhile body _ l => body.IsStructured (l :: enclosing)
  | .forIn v range body l =>
    (∃ lower upper, range = .range lower upper) ∧ v.constant = none ∧
      body.IsStructured (l :: enclosing)
  | .goto l => l.Targets enclosing
  | .label _ | .gotoIf _ _ _ => False

def Stmt.AllStructured (enclosing : List LoopLabels) : List Stmt → Prop
  | [] => True
  | s :: ss => s.IsStructured enclosing ∧ Stmt.AllStructured enclosing ss

end

structure Body.IsStructured (body : Body) (next : Nat) : Prop where
  statements : Stmt.AllStructured [] body
  distinct : (Stmt.ownLabelsOf body).Nodup
  varsBelow : ∀ v ∈ Stmt.varsOf body, v.id < next
  labelsBelow : ∀ l ∈ Stmt.ownLabelsOf body, l < next

/-- A program of structured bodies. A body that may be called while it runs keeps its loop
variables to the activation. -/
structure Program.IsStructured (p : Program) (next : Nat) : Prop where
  bodies : ∀ f body, p.body? f = some body → body.IsStructured next
  localLoops : ∀ f body, p.MayCall f → p.body? f = some body →
    ∀ v ∈ Stmt.loopVarsOf body, v.isGlobal = false

end ScriptLang
