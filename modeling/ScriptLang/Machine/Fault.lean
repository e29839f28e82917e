import ScriptLang.Printer

/-! Why a run ends early. A `Defect` is something that binding should have rejected. A fault
names labels and statements as such; its message shows them with the label names of a body. -/

namespace ScriptLang

inductive Defect where
  | errorExpression
  | undefinedLabel (l : Label)
  | conditionNotBool (value : Value)
  | notLowered (s : Stmt)
  | strayRange
  | voidUsed (function : String)
  | noBody (function : String)
  | unassigned (name : String)
  | mismatch (operator : String) (operands : List Ty)
  | builtinArguments (builtin : Builtin) (count : Nat)

inductive Fault where
  | divisionByZero
  | conversion (value : String) (target : Ty)
  | noInput
  | callDepth (limit : Nat)
  | hasErrors (count : Nat)
  | defect (d : Defect)

def Defect.labels : Defect → List Label
  | undefinedLabel l => [l]
  | notLowered s => s.labels
  | _ => []

def Fault.labels : Fault → List Label
  | defect d => d.labels
  | _ => []

def Defect.message (names : LabelNames) : Defect → String
  | errorExpression => "error expression"
  | undefinedLabel l => "undefined label '" ++ names.name l ++ "'"
  | conditionNotBool value => "condition evaluated to '" ++ value.text ++ "'"
  | notLowered s => "structured statement '" ++ s.text names ++ "' was not lowered"
  | strayRange => "range outside a for loop"
  | voidUsed function => "void function '" ++ function ++ "' used as a value"
  | noBody function => "function '" ++ function ++ "' has no body"
  | unassigned name => "variable '" ++ name ++ "' read before assignment"
  | mismatch operator operands => (OperatorFault.mismatch operator operands).message
  | builtinArguments builtin count =>
    "builtin '" ++ builtin.name ++ "' called with " ++ toString count ++ " argument(s)"

def Fault.message (names : LabelNames) : Fault → String
  | divisionByZero => OperatorFault.divisionByZero.message
  | conversion value target => (OperatorFault.conversion value target).message
  | noInput => "host I/O failed: no more input"
  | callDepth limit => "call depth exceeded the limit of " ++ toString limit
  | hasErrors count =>
    "the program has " ++ toString count ++ " error(s) and cannot be evaluated"
  | defect d => "invalid program: " ++ d.message names

def OperatorFault.toFault : OperatorFault → Fault
  | divisionByZero => .divisionByZero
  | conversion value target => .conversion value target
  | mismatch operator operands => .defect (.mismatch operator operands)

end ScriptLang
