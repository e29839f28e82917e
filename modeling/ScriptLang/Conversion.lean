import ScriptLang.Ty

/-! An implicit conversion loses nothing and is put in wherever a type is expected; an
explicit one has to be written as a call such as `int(x)`. -/

namespace ScriptLang

inductive Conversion where
  | none | identity | implicit | explicit
  deriving DecidableEq, Repr, Inhabited

namespace Conversion

def classify (source target : Ty) : Conversion :=
  if source = target then identity
  else
    match source, target with
    | .void, _ | _, .void => none
    | _, .any => implicit
    | .int, .float => implicit
    | .any, _ => explicit
    | .bool, .string | .int, .string | .float, .string => explicit
    | .string, .bool | .string, .int | .string, .float => explicit
    | .bool, .int | .float, .int => explicit
    | _, _ => none

def exists? (c : Conversion) : Bool := c != none

def name : Conversion → String
  | none => "None"
  | identity => "Identity"
  | implicit => "Implicit"
  | explicit => "Explicit"

@[simp] theorem classify_self (t : Ty) : classify t t = identity := by simp [classify]

end Conversion

end ScriptLang
