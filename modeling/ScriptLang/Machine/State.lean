import ScriptLang.Machine.Fault
import ScriptLang.Machine.Host
import ScriptLang.OrderedMap

/-! Global variables, one frame of local variables for every active call, and the host. A
variable is found by its number. -/

namespace ScriptLang

abbrev Store := OrderedMap Nat Value

namespace Store

def read? (s : Store) (v : Var) : Option Value := s.get? v.id

def write (s : Store) (v : Var) (value : Value) : Store := s.insert v.id value

@[simp] theorem read?_write (s : Store) (v w : Var) (value : Value) :
    (s.write v value).read? w = if w.id = v.id then some value else s.read? w := by
  simp [write, read?]

def ofArguments (parameters : List Var) (values : List Value) : Store :=
  (parameters.zip values).foldl (fun s (p, value) => s.write p value) .empty

end Store

structure State where
  globals : Store
  /-- The frames of the active calls, the innermost first. -/
  frames : List Store
  host : Host
  /-- The value of the last expression that stood alone in the entry function; none if
  it was a call that returned nothing. -/
  last : Option Value
  deriving Inhabited

namespace State

def write (s : State) (v : Var) (value : Value) : State :=
  if v.isGlobal then { s with globals := s.globals.write v value }
  else
    match s.frames with
    | [] => s
    | frame :: rest => { s with frames := frame.write v value :: rest }

def read? (s : State) (v : Var) : Option Value :=
  if v.isGlobal then s.globals.read? v else s.frames.head?.bind fun frame => frame.read? v

/-- The entry function is the only active call. -/
def inEntry (s : State) : Bool :=
  match s.frames with
  | [_] => true
  | _ => false

def reached? (s : State) (limit : Option Nat) : Option Nat :=
  match limit with
  | none => none
  | some n => if n ≤ s.frames.length then some n else none

end State

/-- Why a run has no answer: a fault, or the fuel it was given is used up. -/
inductive Stop where
  | fault (f : Fault)
  | outOfFuel

/-- A step of a run. The state is kept when the run stops. -/
abbrev Run := EStateM Stop State

namespace Run

def fault {α : Type} (f : Fault) : Run α := throw (.fault f)

def defect {α : Type} (d : Defect) : Run α := fault (.defect d)

def ofExcept {α : Type} : Except OperatorFault α → Run α
  | .ok a => pure a
  | .error e => fault e.toFault

def read (v : Var) : Run Value := do
  match (← get).read? v with
  | some value => return value
  | none => defect (.unassigned v.name)

def write (v : Var) (value : Value) : Run PUnit := modify (·.write v value)

end Run

end ScriptLang
