import ScriptLang.Source.Kind
import ScriptLang.Value

/-! An operator is an entry of a table: how it is written, what it does, the type of its
operands and the type of its result. `apply` is the one meaning of an operator, both
when a program runs and when a constant is computed ahead of time.

Integers have 64 bits and wrap around. A shift uses the low six bits of its count. -/

namespace ScriptLang

open Source (Kind)

inductive UnaryAction where
  | identity | negation | logicalNegation | onesComplement
  deriving DecidableEq, Repr, Inhabited

inductive BinaryAction where
  | addition | subtraction | multiplication | division | modulo
  | logicalAnd | logicalOr
  | bitwiseAnd | bitwiseOr | bitwiseXor
  | shiftLeft | shiftRight
  | equals | notEquals | less | lessOrEquals | greater | greaterOrEquals
  deriving DecidableEq, Repr, Inhabited

/-- A unary operator on operands of one type; the result has that type too. -/
structure UnaryOp where
  token : Kind
  action : UnaryAction
  operand : Ty
  result : Ty
  deriving DecidableEq, Repr, Inhabited

structure BinaryOp where
  token : Kind
  action : BinaryAction
  left : Ty
  right : Ty
  result : Ty
  deriving DecidableEq, Repr, Inhabited

namespace UnaryAction

def text : UnaryAction → String
  | identity => "+"
  | negation => "-"
  | logicalNegation => "!"
  | onesComplement => "~"

def apply (a : UnaryAction) (v : Value) : Except OperatorFault Value :=
  match a, v with
  | identity, .int n => .ok (.int n)
  | identity, .float x => .ok (.float x)
  | negation, .int n => .ok (.int (-n))
  | negation, .float x => .ok (.float (-x))
  | logicalNegation, .bool b => .ok (.bool (!b))
  | onesComplement, .int n => .ok (.int (~~~n))
  | _, _ => .error (.mismatch a.text [v.ty])

end UnaryAction

namespace BinaryAction

def text : BinaryAction → String
  | addition => "+"
  | subtraction => "-"
  | multiplication => "*"
  | division => "/"
  | modulo => "%"
  | logicalAnd => "&&"
  | logicalOr => "||"
  | bitwiseAnd => "&"
  | bitwiseOr => "|"
  | bitwiseXor => "^"
  | shiftLeft => "<<"
  | shiftRight => ">>"
  | equals => "=="
  | notEquals => "!="
  | less => "<"
  | lessOrEquals => "<="
  | greater => ">"
  | greaterOrEquals => ">="

/-- The operators on integers. Division is cut toward zero; the remainder has the sign
of the dividend; a shift to the right keeps the sign. -/
def applyInt (a : BinaryAction) (l r : Int64) : Except OperatorFault Value :=
  match a with
  | addition => .ok (.int (l + r))
  | subtraction => .ok (.int (l - r))
  | multiplication => .ok (.int (l * r))
  | division => if r = 0 then .error .divisionByZero else .ok (.int (l / r))
  | modulo => if r = 0 then .error .divisionByZero else .ok (.int (l % r))
  | bitwiseAnd => .ok (.int (l &&& r))
  | bitwiseOr => .ok (.int (l ||| r))
  | bitwiseXor => .ok (.int (l ^^^ r))
  | shiftLeft => .ok (.int (l <<< (r &&& 63)))
  | shiftRight => .ok (.int (l >>> (r &&& 63)))
  | equals => .ok (.bool (l == r))
  | notEquals => .ok (.bool (l != r))
  | less => .ok (.bool (l < r))
  | lessOrEquals => .ok (.bool (l ≤ r))
  | greater => .ok (.bool (r < l))
  | greaterOrEquals => .ok (.bool (r ≤ l))
  | logicalAnd | logicalOr => .error (.mismatch a.text [.int, .int])

def applyFloat (a : BinaryAction) (l r : Float) : Except OperatorFault Value :=
  match a with
  | addition => .ok (.float (l + r))
  | subtraction => .ok (.float (l - r))
  | multiplication => .ok (.float (l * r))
  | division => .ok (.float (l / r))
  | modulo => .ok (.float (Decimal.remainder l r))
  | equals => .ok (.bool (l == r))
  | notEquals => .ok (.bool (l != r))
  | less => .ok (.bool (l < r))
  | lessOrEquals => .ok (.bool (l ≤ r))
  | greater => .ok (.bool (r < l))
  | greaterOrEquals => .ok (.bool (r ≤ l))
  | _ => .error (.mismatch a.text [.float, .float])

def applyBool (a : BinaryAction) (l r : Bool) : Except OperatorFault Value :=
  match a with
  | logicalAnd | bitwiseAnd => .ok (.bool (l && r))
  | logicalOr | bitwiseOr => .ok (.bool (l || r))
  | bitwiseXor | notEquals => .ok (.bool (l != r))
  | equals => .ok (.bool (l == r))
  | _ => .error (.mismatch a.text [.bool, .bool])

def applyString (a : BinaryAction) (l r : String) : Except OperatorFault Value :=
  match a with
  | addition => .ok (.string (l ++ r))
  | equals => .ok (.bool (l == r))
  | notEquals => .ok (.bool (l != r))
  | _ => .error (.mismatch a.text [.string, .string])

def apply (a : BinaryAction) (l r : Value) : Except OperatorFault Value :=
  match l, r with
  | .int l, .int r => a.applyInt l r
  | .float l, .float r => a.applyFloat l r
  | .bool l, .bool r => a.applyBool l r
  | .string l, .string r => a.applyString l r
  | l, r => .error (.mismatch a.text [l.ty, r.ty])

end BinaryAction

namespace UnaryOp

def on (ty : Ty) (token : Kind) (action : UnaryAction) : UnaryOp := ⟨token, action, ty, ty⟩

def table : List UnaryOp :=
  [on .bool .bang .logicalNegation,
    on .int .plus .identity,
    on .int .minus .negation,
    on .int .tilde .onesComplement,
    on .float .plus .identity,
    on .float .minus .negation]

def resolve? (token : Kind) (operand : Ty) : Option UnaryOp :=
  table.find? fun op => op.token = token && op.operand = operand

def text (op : UnaryOp) : String := op.token.text?.getD "?"

end UnaryOp

namespace BinaryOp

def combine (ty : Ty) (token : Kind) (action : BinaryAction) : BinaryOp :=
  ⟨token, action, ty, ty, ty⟩

def compare (ty : Ty) (token : Kind) (action : BinaryAction) : BinaryOp :=
  ⟨token, action, ty, ty, .bool⟩

def intAddition : BinaryOp := combine .int .plus .addition

def intEquals : BinaryOp := compare .int .equalsEquals .equals

def intLessOrEquals : BinaryOp := compare .int .lessEquals .lessOrEquals

def table : List BinaryOp :=
  [intAddition,
    combine .int .minus .subtraction,
    combine .int .star .multiplication,
    combine .int .slash .division,
    combine .int .percent .modulo,
    combine .int .ampersand .bitwiseAnd,
    combine .int .pipe .bitwiseOr,
    combine .int .hat .bitwiseXor,
    combine .int .lessLess .shiftLeft,
    combine .int .greaterGreater .shiftRight,
    intEquals,
    compare .int .bangEquals .notEquals,
    compare .int .less .less,
    intLessOrEquals,
    compare .int .greater .greater,
    compare .int .greaterEquals .greaterOrEquals,
    combine .float .plus .addition,
    combine .float .minus .subtraction,
    combine .float .star .multiplication,
    combine .float .slash .division,
    combine .float .percent .modulo,
    compare .float .equalsEquals .equals,
    compare .float .bangEquals .notEquals,
    compare .float .less .less,
    compare .float .lessEquals .lessOrEquals,
    compare .float .greater .greater,
    compare .float .greaterEquals .greaterOrEquals,
    combine .bool .ampersandAmpersand .logicalAnd,
    combine .bool .pipePipe .logicalOr,
    combine .bool .ampersand .bitwiseAnd,
    combine .bool .pipe .bitwiseOr,
    combine .bool .hat .bitwiseXor,
    compare .bool .equalsEquals .equals,
    compare .bool .bangEquals .notEquals,
    combine .string .plus .addition,
    compare .string .equalsEquals .equals,
    compare .string .bangEquals .notEquals]

def resolve? (token : Kind) (left right : Ty) : Option BinaryOp :=
  table.find? fun op => op.token = token && op.left = left && op.right = right

def text (op : BinaryOp) : String := op.token.text?.getD "?"

end BinaryOp

end ScriptLang
