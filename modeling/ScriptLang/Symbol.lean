import ScriptLang.Value

/-! Variables, functions and labels are told apart by a number that is fresh when the
symbol is made, never by their name: two loops have two `break` labels, and two
functions may both have an `i`. -/

namespace ScriptLang

abbrev Fresh := StateM Nat

def freshId : Fresh Nat := fun next => (next, next + 1)

/-- Functions whose meaning the host supplies. -/
inductive Builtin where
  | print | input | rnd
  deriving DecidableEq, Repr, Inhabited

/-- Where a variable lives. A parameter knows its place among the arguments. -/
inductive VarKind where
  | globalVar
  | localVar
  | parameter (ordinal : Nat)
  deriving DecidableEq, Repr, Inhabited

/-- Whether a variable can be assigned to. One that cannot may have a known value. -/
inductive Access where
  | mutable
  | readOnly (constant : Option Value)
  deriving DecidableEq, Inhabited

structure Var where
  id : Nat
  name : String
  ty : Ty
  kind : VarKind
  access : Access
  deriving DecidableEq, Inhabited

namespace Var

def readOnly (v : Var) : Bool :=
  match v.access with
  | .mutable => false
  | .readOnly _ => true

def constant (v : Var) : Option Value :=
  match v.access with
  | .mutable => none
  | .readOnly c => c

def isGlobal (v : Var) : Bool := v.kind == .globalVar

/-- A new variable. A constant is kept for a read-only variable only. -/
def create (name : String) (readOnly : Bool) (ty : Ty) (kind : VarKind)
    (constant : Option Value) : Fresh Var := do
  let access := if readOnly then .readOnly constant else .mutable
  return { id := ← freshId, name, ty, kind, access }

def createParameter (name : String) (ty : Ty) (ordinal : Nat) : Fresh Var :=
  create name true ty (.parameter ordinal) none

@[simp] theorem constant_of_mutable {v : Var} (h : v.readOnly = false) : v.constant = none := by
  unfold readOnly at h
  unfold constant
  split <;> simp_all

end Var

/-- A function. `declaration` is the number of the node that declares it; a builtin and
an entry function made for global statements have none. -/
structure Fn where
  id : Nat
  name : String
  parameters : List Var
  returns : Ty
  declaration : Option Nat
  builtin : Option Builtin
  deriving DecidableEq, Inhabited

namespace Fn

def create (name : String) (parameters : List Var) (returns : Ty) (declaration : Option Nat) :
    Fresh Fn := do
  return { id := ← freshId, name, parameters, returns, declaration, builtin := none }

def signature (f : Fn) : String :=
  let parameters := f.parameters.map fun p => p.name ++ ": " ++ p.ty.name
  "function " ++ f.name ++ "(" ++ ", ".intercalate parameters ++ "): " ++ f.returns.name

end Fn

/-- A place to jump to. Its printed name is the stem and a number; see
`ScriptLang.LabelNames`. -/
structure Label where
  id : Nat
  stem : String
  deriving DecidableEq, Repr, Inhabited

def Label.create (stem : String) : Fresh Label := do
  return { id := ← freshId, stem }

inductive Symbol where
  | var (v : Var)
  | fn (f : Fn)
  deriving DecidableEq, Inhabited

namespace Symbol

def id : Symbol → Nat
  | var v => v.id
  | fn f => f.id

def var? : Symbol → Option Var
  | var v => some v
  | fn _ => none

def fn? : Symbol → Option Fn
  | var _ => none
  | fn f => some f

end Symbol

namespace Builtin

def all : List Builtin := [print, input, rnd]

def name : Builtin → String
  | print => "print"
  | input => "input"
  | rnd => "rnd"

def parameters : Builtin → List (String × Ty)
  | print => [("text", .any)]
  | input => []
  | rnd => [("max", .int)]

def returns : Builtin → Ty
  | print => .void
  | input => .string
  | rnd => .int

def createFn (b : Builtin) : Fresh Fn := do
  let parameters ← b.parameters.zipIdx.mapM fun ((name, ty), i) => Var.createParameter name ty i
  return { id := ← freshId, name := b.name, parameters, returns := b.returns,
           declaration := none, builtin := some b }

end Builtin

end ScriptLang
