import ScriptLang.Expr

/-! Structured statements and the flat ones that replace them live in one type. A loop
carries the labels that `break` and `continue` jump to. -/

namespace ScriptLang

structure LoopLabels where
  onBreak : Label
  onContinue : Label
  deriving DecidableEq, Repr, Inhabited

inductive Stmt where
  | block (body : List Stmt)
  | declare (v : Var) (value : Expr)
  | ifThen (condition : Expr) (thenBody : Stmt)
  | ifElse (condition : Expr) (thenBody elseBody : Stmt)
  | whileDo (condition : Expr) (body : Stmt) (labels : LoopLabels)
  | doWhile (body : Stmt) (condition : Expr) (labels : LoopLabels)
  /-- `range` is a range of two bounds, or an error once a mistake in it is reported. -/
  | forIn (v : Var) (range : Expr) (body : Stmt) (labels : LoopLabels)
  | label (l : Label)
  | goto (target : Label)
  /-- Jumps if the condition has the value `jumpIf`. -/
  | gotoIf (target : Label) (condition : Expr) (jumpIf : Bool)
  | ret (value : Option Expr)
  | expr (e : Expr)
  deriving Inhabited

abbrev Body := List Stmt

namespace Stmt

/-- One of the six kinds that remain after lowering. -/
def isFlat : Stmt → Bool
  | label _ | goto _ | gotoIf _ _ _ | declare _ _ | expr _ | ret _ => true
  | block _ | ifThen _ _ | ifElse _ _ _ | whileDo _ _ _ | doWhile _ _ _ | forIn _ _ _ _ => false

def isTerminator : Stmt → Bool
  | goto _ | ret _ => true
  | _ => false

end Stmt

def Body.isFlat (b : Body) : Bool := b.all Stmt.isFlat

end ScriptLang
