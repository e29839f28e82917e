import ScriptLang.Decimal.Reader
import ScriptLang.Decimal.Shortest
import ScriptLang.Text.Blank
import ScriptLang.Ty

/-! What a program computes with, how a value is written, and the conversions between
the types. Running a program and computing a constant ahead of time use the same
conversions, so they cannot disagree. -/

namespace ScriptLang

inductive Value where
  | bool (b : Bool)
  | int (n : Int64)
  | float (x : Float)
  | string (s : String)
  deriving DecidableEq, Inhabited

/-- What goes wrong when an operator or a conversion meets the wrong values. -/
inductive OperatorFault where
  | divisionByZero
  | conversion (value : String) (target : Ty)
  | mismatch (operator : String) (operands : List Ty)
  deriving DecidableEq, Repr

namespace Value

def ty : Value → Ty
  | bool _ => .bool
  | int _ => .int
  | float _ => .float
  | string _ => .string

def text : Value → String
  | bool b => if b then "true" else "false"
  | int n => String.ofList (Decimal.writeInt64 n)
  | float x => String.ofList (Decimal.writeFloat x)
  | string s => s

def asBool? : Value → Option Bool
  | bool b => some b
  | _ => none

def readBool? (cs : List Char) : Option Bool :=
  if cs = "true".toList then some true
  else if cs = "false".toList then some false
  else none

/-- The value as one of type `target`, if it has one. A text is read without the blanks
around it. -/
def convert? (v : Value) (target : Ty) : Option Value :=
  match target, v with
  | .any, v => some v
  | .string, v => some (string v.text)
  | .bool, bool b => some (bool b)
  | .bool, int n => some (bool (n != 0))
  | .bool, string s => (readBool? (trim s.toList)).map bool
  | .int, int n => some (int n)
  | .int, bool b => some (int (if b then 1 else 0))
  | .int, float x => some (int (Decimal.truncate x))
  | .int, string s => (Decimal.readInt64? (trim s.toList)).map int
  | .float, float x => some (float x)
  | .float, int n => some (float (Decimal.ofInt64 n))
  | .float, bool b => some (float (if b then 1.0 else 0.0))
  | .float, string s => (Decimal.readFloat? (trim s.toList)).map float
  | _, _ => none

def convert (v : Value) (target : Ty) : Except OperatorFault Value :=
  match v.convert? target with
  | some w => .ok w
  | none => .error (.conversion v.text target)

@[simp] theorem convert?_any (v : Value) : v.convert? .any = some v := by
  cases v <;> rfl

@[simp] theorem convert?_string (v : Value) : v.convert? .string = some (string v.text) := by
  cases v <;> rfl

end Value

def OperatorFault.operandList (operands : List Ty) : String :=
  " and ".intercalate (operands.map Ty.name)

def OperatorFault.message : OperatorFault → String
  | divisionByZero => "division by zero"
  | conversion value target => "cannot convert '" ++ value ++ "' to '" ++ target.name ++ "'"
  | mismatch operator operands =>
    "operator '" ++ operator ++ "' cannot be applied to " ++ operandList operands

end ScriptLang
