import ScriptLang.Operator
import ScriptLang.Symbol

/-! In an expression every name is resolved and every operator is chosen. Its type and,
where it has one, its constant value are functions of the expression.

`&&` and `||` have a constant value as soon as one operand decides, if leaving out
the other changes nothing but that value. Division by zero and a conversion that
fails have none. -/

namespace ScriptLang

inductive Expr where
  /-- Stands for a mistake that has been reported. -/
  | error
  | literal (value : Value)
  | var (v : Var)
  | assign (v : Var) (value : Expr)
  | unary (op : UnaryOp) (operand : Expr)
  | binary (left : Expr) (op : BinaryOp) (right : Expr)
  /-- The bounds of a `for` loop, both of them inclusive. -/
  | range (lower upper : Expr)
  | call (f : Fn) (args : List Expr)
  | convert (target : Ty) (value : Expr)
  deriving Inhabited

namespace Expr

def ty : Expr → Ty
  | error => .error
  | literal v => v.ty
  | var v => v.ty
  | assign _ e => e.ty
  | unary op _ => op.result
  | binary _ op _ => op.result
  | range _ _ => .int
  | call f _ => f.returns
  | convert t _ => t

def isError (e : Expr) : Bool := e.ty == .error

def hasSideEffects : Expr → Bool
  | error | literal _ | var _ => false
  | assign _ _ | call _ _ => true
  | unary _ e | convert _ e => e.hasSideEffects
  | binary l _ r | range l r => l.hasSideEffects || r.hasSideEffects

/-- The operator decides on `deciding` alone. -/
def decisive? : BinaryAction → Option Bool
  | .logicalAnd => some false
  | .logicalOr => some true
  | _ => none

/-- The constant of a binary operation with operands of known or unknown value. A right
operand decides only if the left one, which is then not evaluated, does nothing. -/
def foldBinary (left : Option Value) (leftActs : Bool) (action : BinaryAction)
    (right : Option Value) : Option Value :=
  let decided := (decisive? action).filter fun b =>
    left.bind Value.asBool? == some b || (right.bind Value.asBool? == some b && !leftActs)
  match decided with
  | some b => some (.bool b)
  | none =>
    match left, right with
    | some l, some r => (action.apply l r).toOption
    | _, _ => none

def constant? : Expr → Option Value
  | error | assign _ _ | range _ _ | call _ _ => none
  | literal v => some v
  | var v => v.constant
  | unary op e => e.constant?.bind fun v => (op.action.apply v).toOption
  | binary l op r => foldBinary l.constant? l.hasSideEffects op.action r.constant?
  | convert t e => e.constant?.bind fun v => v.convert? t

def constantBool? (e : Expr) : Option Bool := e.constant?.bind Value.asBool?

end Expr

end ScriptLang
