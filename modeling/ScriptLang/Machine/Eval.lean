import ScriptLang.Expr
import ScriptLang.Machine.State

/-! An expression of known value has that value. Any other is evaluated from left to right;
`&&` and `||` leave out their right operand once the left one decides. A call of a
function that is no builtin is left to `invoke`. -/

namespace ScriptLang

/-- How functions that are not builtins are called. A `void` function gives no value. -/
abbrev Invoke := Fn → List Value → Run (Option Value)

namespace Builtin

def run (b : Builtin) (args : List Value) : Run (Option Value) := do
  match b, args with
  | print, [v] =>
    modify fun s => { s with host := s.host.print v.text }
    return none
  | input, [] =>
    match (← get).host.readLine? with
    | some (line, host) =>
      modify fun s => { s with host }
      return some (.string line)
    | none => Run.fault .noInput
  | rnd, [.int max] =>
    let (n, host) := (← get).host.random max
    modify fun s => { s with host }
    return some (.int n)
  | b, args => Run.defect (.builtinArguments b args.length)

end Builtin

def Fn.apply (invoke : Invoke) (f : Fn) (args : List Value) : Run (Option Value) :=
  match f.builtin with
  | some b => b.run args
  | none => invoke f args

def BinaryAction.shortCircuit? (a : BinaryAction) (left : Value) : Option Bool :=
  (Expr.decisive? a).filter fun b => left.asBool? == some b

namespace Expr

mutual

def eval (invoke : Invoke) : Expr → Run Value
  | error => Run.defect .errorExpression
  | literal v => return v
  | var v =>
    match v.constant with
    | some value => return value
    | none => Run.read v
  | assign v e => do
    let value ← e.eval invoke
    Run.write v value
    return value
  | unary op e =>
    match (unary op e).constant? with
    | some value => return value
    | none => do
      let value ← e.eval invoke
      Run.ofExcept (op.action.apply value)
  | binary l op r =>
    match (binary l op r).constant? with
    | some value => return value
    | none => do
      let left ← l.eval invoke
      match op.action.shortCircuit? left with
      | some b => return .bool b
      | none =>
        let right ← r.eval invoke
        Run.ofExcept (op.action.apply left right)
  | range _ _ => Run.defect .strayRange
  | call f args => do
    let values ← evalArgs invoke args
    match ← f.apply invoke values with
    | some value => return value
    | none => Run.defect (.voidUsed f.name)
  | convert t e =>
    match (convert t e).constant? with
    | some value => return value
    | none => do
      let value ← e.eval invoke
      Run.ofExcept (value.convert t)

def evalArgs (invoke : Invoke) : List Expr → Run (List Value)
  | [] => return []
  | e :: es => do
    let value ← e.eval invoke
    return value :: (← evalArgs invoke es)

end

theorem eval_of_constant {e : Expr} {value : Value} (known : e.constant? = some value)
    (invoke : Invoke) : e.eval invoke = pure value := by
  cases e <;> simp_all [eval, constant?]

/-- Evaluates an expression that stands alone, which may be a call without a value. -/
def evalAlone (invoke : Invoke) : Expr → Run (Option Value)
  | call f args => do f.apply invoke (← evalArgs invoke args)
  | e => do return some (← e.eval invoke)

end Expr

end ScriptLang
