import ScriptLang.Machine.Eval
import ScriptLang.Program

/-! A call runs the body of a function statement by statement in a frame of its own. Fuel
bounds the length of a run: each statement and each call may use one unit less than the
statement before it. More fuel never changes an answer. -/

namespace ScriptLang

inductive Next where
  | goto (place : Nat)
  | ret (value : Option Value)
  deriving DecidableEq

def Stmt.defines (l : Label) : Stmt → Bool
  | .label k => k.id == l.id
  | _ => false

/-- The place of the last of some statements that defines a label, where the first of
them stands at `place`. -/
def labelPlaceFrom? (l : Label) (place : Nat) : List Stmt → Option Nat
  | [] => none
  | s :: ss =>
    match labelPlaceFrom? l (place + 1) ss with
    | some later => some later
    | none => if s.defines l then some place else none

def Body.labelPlace? (body : Body) (l : Label) : Option Nat := labelPlaceFrom? l 0 body

namespace Run

def jump (body : Body) (l : Label) : Run Next :=
  match body.labelPlace? l with
  | some place => return .goto place
  | none => defect (.undefinedLabel l)

/-- Runs the statement at `place` of the body. `isEntry` says that the body is the one the
program started with. -/
def stmt (invoke : Invoke) (body : Body) (isEntry : Bool) (place : Nat) : Stmt → Run Next
  | .declare v e => do
    write v (← e.eval invoke)
    return .goto (place + 1)
  | .expr e => do
    let value ← e.evalAlone invoke
    if isEntry then modify fun s => { s with last := value }
    return .goto (place + 1)
  | .label _ => return .goto (place + 1)
  | .goto l => jump body l
  | .gotoIf l c jumpIf => do
    match ← c.eval invoke with
    | .bool b => if b = jumpIf then jump body l else return .goto (place + 1)
    | value => defect (.conditionNotBool value)
  | .ret none => return .ret none
  | .ret (some e) => do return .ret (some (← e.eval invoke))
  | s => defect (.notLowered s)

end Run

/-- Runs with one more frame, which is taken away at the end, also after a fault. -/
def Run.inFrame {α : Type} (frame : Store) (x : Run α) : Run α := fun s =>
  match x { s with frames := frame :: s.frames } with
  | .ok a s => .ok a { s with frames := s.frames.tail }
  | .error stop s => .error stop { s with frames := s.frames.tail }

namespace Program

/-- Calls a function, its body run by `run`. No call is made once `limit` frames are
active. -/
def invoke (p : Program) (limit : Option Nat) (run : Body → Run (Option Value)) : Invoke :=
  fun f args => do
    match (← get).reached? limit with
    | some n => Run.fault (.callDepth n)
    | none =>
      match p.body? f with
      | none => Run.defect (.noBody f.name)
      | some body => Run.inFrame (Store.ofArguments f.parameters args) (run body)

def runFrom (p : Program) (limit : Option Nat) :
    (fuel : Nat) → (body : Body) → (place : Nat) → Run (Option Value)
  | 0, _, _ => throw .outOfFuel
  | fuel + 1, body, place => fun s =>
    match body[place]? with
    | none => .ok none s
    | some stmt =>
      let invoke := p.invoke limit fun callee => p.runFrom limit fuel callee 0
      match Run.stmt invoke body s.inEntry place stmt s with
      | .ok (.goto next) s => p.runFrom limit fuel body next s
      | .ok (.ret value) s => .ok value s
      | .error stop s => .error stop s

/-- Runs the entry function, its body run by `run`. Its value is what it returns, or else
the value of the last expression that stood alone in it. A program with errors does not
run, and one without an entry does nothing. -/
def executeWith (p : Program) (run : Body → Run (Option Value)) : Run (Option Value) := do
  if p.diagnostics.hasErrors then Run.fault (.hasErrors p.diagnostics.errorCount)
  else
    match p.entry with
    | none => return none
    | some entry =>
      match p.body? entry with
      | none => Run.defect (.noBody entry.name)
      | some body =>
        let value ← Run.inFrame .empty (run body)
        return value <|> (← get).last

def execute (p : Program) (limit : Option Nat) (fuel : Nat) : Run (Option Value) :=
  p.executeWith fun body => p.runFrom limit fuel body 0

def faultMessage (p : Program) (f : Fault) : String := f.message (p.labelNames f.labels)

end Program

structure Outcome where
  result : Except Stop (Option Value)
  globals : Store
  host : Host

def Run.outcome (x : Run (Option Value)) (globals : Store) (host : Host) : Outcome :=
  match x { globals, frames := [], host, last := none } with
  | .ok value s => ⟨.ok value, s.globals, s.host⟩
  | .error stop s => ⟨.error stop, s.globals, s.host⟩

def Program.evaluate (p : Program) (limit : Option Nat) (fuel : Nat) (globals : Store)
    (host : Host) : Outcome :=
  (p.execute limit fuel).outcome globals host

end ScriptLang
