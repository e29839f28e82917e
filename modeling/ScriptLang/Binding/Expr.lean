import ScriptLang.Binding.Context
import ScriptLang.Conversion

/-! Names are looked up, operators are chosen by the types of their operands, and
conversions are put in where a type is expected. -/

namespace ScriptLang.Binding

open Source (Token Name)

/-- Reports a `void` expression where a value is needed. -/
def requireValue (file : Option String) (range : TextRange) (bound : Expr) : Bind Expr := do
  if bound.ty = .void then
    Bind.report file range .expressionMustHaveValue []
    return .error
  else return bound

/-- Converts to a type. Where no conversion exists, or only an explicit one and none is
written, that is reported. An error is passed on in silence. -/
def convert (file : Option String) (range : TextRange) (e : Expr) (target : Ty)
    (allowExplicit : Bool) : Bind Expr := do
  if e.isError || target == .error then return e
  else
    match Conversion.classify e.ty target with
    | .none =>
      Bind.report file range .cannotConvert [e.ty.name, target.name]
      return .error
    | .identity => return e
    | .implicit => return .convert target e
    | .explicit =>
      if !allowExplicit then
        Bind.report file range .cannotConvertImplicitly [e.ty.name, target.name]
      return .convert target e

def resolveVar (file : Option String) (scope : Scope) (name : Name) : Bind (Option Var) := do
  match scope.lookup? name.text with
  | some (.var v) => return some v
  | some (.fn _) =>
    Bind.report file name.mark.range .notAVariable [name.text]
    return none
  | none =>
    Bind.report file name.mark.range .undefinedVariable [name.text]
    return none

def unary (file : Option String) (op : Token) (operand : Expr) : Bind Expr := do
  if operand.isError then return .error
  else
    match UnaryOp.resolve? op.kind operand.ty with
    | some o => return .unary o operand
    | none =>
      Bind.report file op.mark.range .undefinedUnaryOperator
        [op.kind.text?.getD "", operand.ty.name]
      return .error

/-- Applies the operator `kind`, which is written at the token `op`. -/
def binary (file : Option String) (op : Token) (kind : Source.Kind) (left right : Expr) :
    Bind Expr := do
  if left.isError || right.isError then return .error
  else
    match BinaryOp.resolve? kind left.ty right.ty with
    | some o => return .binary left o right
    | none =>
      Bind.report file op.mark.range .undefinedBinaryOperator
        [kind.text?.getD "", left.ty.name, right.ty.name]
      return .error

/-- Assigns a value that is bound already. A compound form combines it with the variable
first. -/
def assign (file : Option String) (scope : Scope) (target : Name) (op : Token)
    (range : TextRange) (value : Expr) : Bind Expr := do
  match ← resolveVar file scope target with
  | none => return .error
  | some v =>
    if v.readOnly then Bind.report file op.mark.range .cannotAssign [v.name]
    match op.kind.compound? with
    | none => return .assign v (← convert file range value v.ty false)
    | some kind =>
      let combined ← binary file op kind (.var v) value
      if combined.isError then return .error
      else return .assign v (← convert file range combined v.ty false)

def convertArgs (file : Option String) :
    List Source.Expr → List Expr → List Var → Bind (List Expr)
  | source :: sources, bound :: bounds, p :: ps => do
    let arg ← convert file source.textRange bound p.ty false
    return arg :: (← convertArgs file sources bounds ps)
  | _, _, _ => return []

/-- Calls a function with arguments that are bound already. A type name with one argument
is a conversion. -/
def call (file : Option String) (scope : Scope) (range : TextRange) (callee : Name)
    (sources : List Source.Expr) (args : List Expr) : Bind Expr := do
  match Ty.ofName? callee.text, sources, args with
  | some ty, [source], [arg] => convert file source.textRange arg ty true
  | _, _, _ =>
    match scope.lookup? callee.text with
    | some (.fn f) =>
      if args.length ≠ f.parameters.length then
        Bind.report file range .wrongArgumentCount
          [callee.text, toString f.parameters.length, toString args.length]
        return .error
      else return .call f (← convertArgs file sources args f.parameters)
    | some (.var _) =>
      Bind.report file callee.mark.range .notAFunction [callee.text]
      return .error
    | none =>
      Bind.report file callee.mark.range .undefinedFunction [callee.text]
      return .error

mutual

/-- Binds an expression that may be `void`. -/
def expr (file : Option String) (scope : Scope) : Source.Expr → Bind Expr
  | .paren _ inner => expr file scope inner
  | .literal _ v => return .literal v
  | .name _ name => do
    match ← resolveVar file scope name with
    | some v => return .var v
    | none => return .error
  | .assign _ target op value => do
    let bound ← requireValue file value.textRange (← expr file scope value)
    assign file scope target op value.textRange bound
  | .unary _ op operand => do
    let bound ← requireValue file operand.textRange (← expr file scope operand)
    unary file op bound
  | .binary _ left op right => do
    let l ← requireValue file left.textRange (← expr file scope left)
    let r ← requireValue file right.textRange (← expr file scope right)
    binary file op op.kind l r
  | .range m lower upper => do
    let _ ← requireValue file lower.textRange (← expr file scope lower)
    let _ ← requireValue file upper.textRange (← expr file scope upper)
    Bind.report file m.range .rangeOnlyInFor []
    return .error
  | .call m callee args => do
    call file scope m.range callee args (← exprs file scope args)

def exprs (file : Option String) (scope : Scope) : List Source.Expr → Bind (List Expr)
  | [] => return []
  | e :: es => do
    let bound ← requireValue file e.textRange (← expr file scope e)
    return bound :: (← exprs file scope es)

end

def value (file : Option String) (scope : Scope) (e : Source.Expr) : Bind Expr := do
  requireValue file e.textRange (← expr file scope e)

def valueOf (file : Option String) (scope : Scope) (target : Ty) (e : Source.Expr) :
    Bind Expr := do
  convert file e.textRange (← value file scope e) target false

end ScriptLang.Binding
