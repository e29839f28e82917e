import ScriptLang.Stmt

/-! Structured statements become labels and jumps. Each statement expands into a list of
flat ones, so the code of a block is the code of its statements in a row. -/

namespace ScriptLang

/-- A jump to `target` if `condition` has the value `jumpIf`. A condition of known value
leaves a plain jump, or none. -/
def jumpIf (target : Label) (condition : Expr) (value : Bool) : List Stmt :=
  match condition.constantBool? with
  | some b => if b = value then [.goto target] else []
  | none => [.gotoIf target condition value]

def upperBoundName : String := "upperBound"

def Expr.bounds : Expr → Expr × Expr
  | .range lower upper => (lower, upper)
  | _ => (.error, .error)

/-- A loop that tests its condition first: enter at the test, which stands at the end. -/
def loopCode (bodyLabel : Label) (labels : LoopLabels) (condition : Expr) (body : List Stmt) :
    List Stmt :=
  [.goto labels.onContinue, .label bodyLabel] ++ body ++ [.label labels.onContinue] ++
    jumpIf bodyLabel condition true ++ [.label labels.onBreak]

/-- What a `for` loop does after its body: `continue` leads here, the loop ends at its
upper bound, and otherwise the variable goes up by one. The test comes before the step,
so the variable never passes the bound. -/
def stepCode (v upper : Var) (labels : LoopLabels) : List Stmt :=
  [.label labels.onContinue] ++
    jumpIf labels.onBreak (.binary (.var v) .intEquals (.var upper)) true ++
    [.expr (.assign v (.binary (.var v) .intAddition (.literal (.int 1))))]

namespace Stmt

mutual

def lower : Stmt → Fresh (List Stmt)
  | block body => lowerAll body
  | ifThen c t => do
    let done ← Label.create "end"
    let thenCode ← t.lower
    return jumpIf done c false ++ thenCode ++ [label done]
  | ifElse c t e => do
    let done ← Label.create "end"
    let otherwise ← Label.create "else"
    let thenCode ← t.lower
    let elseCode ← e.lower
    return jumpIf otherwise c false ++ thenCode ++ [goto done, label otherwise] ++ elseCode ++
      [label done]
  | whileDo c body labels => do
    let bodyLabel ← Label.create "body"
    let code ← body.lower
    return loopCode bodyLabel labels c code
  | doWhile body c labels => do
    let bodyLabel ← Label.create "body"
    let code ← body.lower
    return [label bodyLabel] ++ code ++ [label labels.onContinue] ++ jumpIf bodyLabel c true ++
      [label labels.onBreak]
  | forIn v range body labels => do
    let kind := if v.isGlobal then VarKind.globalVar else .localVar
    let upper ← Var.create upperBoundName true .int kind none
    let test ← Label.create "continue"
    let bodyLabel ← Label.create "body"
    let code ← body.lower
    return [declare v range.bounds.1, declare upper range.bounds.2] ++
      loopCode bodyLabel ⟨labels.onBreak, test⟩ (.binary (.var v) .intLessOrEquals (.var upper))
        (code ++ stepCode v upper labels)
  | gotoIf target c value => return jumpIf target c value
  | declare v e => return [declare v e]
  | label l => return [label l]
  | goto l => return [goto l]
  | ret e => return [ret e]
  | expr e => return [expr e]

def lowerAll : List Stmt → Fresh (List Stmt)
  | [] => return []
  | s :: ss => do
    let code ← s.lower
    let rest ← lowerAll ss
    return code ++ rest

end

end Stmt

namespace Body

/-- Code of a `void` function that can run past its end gets a `return` there. -/
def close (returns : Ty) (code : Body) : Body :=
  if returns = .void ∧ (code.getLast?.map Stmt.isTerminator).getD false = false then
    code ++ [.ret none]
  else code

def lower (returns : Ty) (body : Body) : Fresh Body := do
  return close returns (← Stmt.lowerAll body)

end Body

end ScriptLang
