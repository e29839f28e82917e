import ScriptLang.Binding.Expr

/-! A statement may declare names, so binding one gives the statement and the scope for
what follows it. A block and a `for` loop have a scope of their own. -/

namespace ScriptLang.Binding

open Source (Token Name TypeClause)

def type? (file : Option String) (clause : TypeClause) : Bind (Option Ty) := do
  match Ty.ofName? clause.name.text with
  | some t => return some t
  | none =>
    Bind.report file clause.name.mark.range .undefinedType [clause.name.text]
    return none

/-- Makes a variable and declares it. A name that is taken is reported; the variable is
then used in its declaration and nowhere else. -/
def declareVar (c : BindContext) (scope : Scope) (name : Name) (readOnly : Bool) (ty : Ty)
    (constant : Option Value) : Bind (Var × Scope) := do
  let kind := if c.function.isNone then VarKind.globalVar else .localVar
  let v ← Bind.fresh (Var.create name.text readOnly ty kind constant)
  match scope.declare? name.text (.var v) with
  | some scope => return (v, scope)
  | none =>
    Bind.report c.file name.mark.range .symbolAlreadyDeclared [name.text]
    return (v, scope)

def declaration (c : BindContext) (scope : Scope) (keyword : Token) (name : Name)
    (type : Option TypeClause) (source : Source.Expr) : Bind (Stmt × Scope) := do
  let declared ← match type with
    | some clause => type? c.file clause
    | none => pure none
  let bound ← value c.file scope source
  let ty := declared.getD bound.ty
  let bound ← convert c.file source.textRange bound ty false
  let (v, scope) ← declareVar c scope name (keyword.kind == .letKeyword) ty bound.constant?
  return (.declare v bound, scope)

/-- The bounds of a `for` loop. The lower one must be an `int` as it stands; the upper one
may be converted. -/
def loopRange (file : Option String) (scope : Scope) : Source.Expr → Bind Expr
  | .range _ lower upper => do
    let l ← value file scope lower
    let l ← if !l.isError && l.ty != .int then do
        Bind.report file lower.textRange .rangeBoundMustBeInt [l.ty.name]
        pure Expr.error
      else pure l
    let u ← valueOf file scope .int upper
    return .range l u
  | other => do
    Bind.report file other.textRange .forRequiresRange []
    return .error

def jump (c : BindContext) (keyword : Token) : Bind Stmt := do
  match c.loops with
  | [] =>
    Bind.report c.file keyword.mark.range .invalidBreakOrContinue [keyword.kind.text?.getD ""]
    return .expr .error
  | labels :: _ =>
    return .goto (if keyword.kind = .breakKeyword then labels.onBreak else labels.onContinue)

def returnStmt (c : BindContext) (keyword : TextRange) (bound : Option (TextRange × Expr)) :
    Bind Stmt := do
  match c.function, bound with
  | none, _ =>
    Bind.report c.file keyword .invalidReturn []
    return .ret (bound.map Prod.snd)
  | some f, some (range, e) =>
    if f.returns = .void then
      Bind.report c.file range .invalidReturnExpression [f.name]
      return .ret (some e)
    else return .ret (some (← convert c.file range e f.returns false))
  | some f, none =>
    if f.returns ≠ .void ∧ f.returns ≠ .error then
      Bind.report c.file keyword .missingReturnExpression [f.returns.name]
    return .ret none

def newLoop : Fresh LoopLabels := do
  return { onBreak := ← Label.create "break", onContinue := ← Label.create "continue" }

def BindContext.enter (c : BindContext) (labels : LoopLabels) : BindContext :=
  { c with loops := labels :: c.loops }

/-- Expressions that do something when they stand alone, and those already reported. -/
def standsAlone : Expr → Bool
  | .error | .assign _ _ | .call _ _ => true
  | _ => false

mutual

/-- Binds a statement. `isGlobal` says that it is a member of the unit, where a script
may have any expression. -/
def stmt (c : BindContext) (isGlobal : Bool) (scope : Scope) : Source.Stmt → Bind (Stmt × Scope)
  | .block _ body => do
    let (body, _) ← stmts c scope.push body
    return (.block body, scope)
  | .declare _ keyword name type source => declaration c scope keyword name type source
  | .ifThen _ condition thenBody => do
    let condition ← valueOf c.file scope .bool condition
    let (thenBody, scope) ← stmt c false scope thenBody
    return (.ifThen condition thenBody, scope)
  | .ifElse _ condition thenBody elseBody => do
    let condition ← valueOf c.file scope .bool condition
    let (thenBody, scope) ← stmt c false scope thenBody
    let (elseBody, scope) ← stmt c false scope elseBody
    return (.ifElse condition thenBody elseBody, scope)
  | .whileDo _ condition body => do
    let condition ← valueOf c.file scope .bool condition
    let labels ← Bind.fresh newLoop
    let (body, scope) ← stmt (BindContext.enter c labels) false scope body
    return (.whileDo condition body labels, scope)
  | .doWhile _ body condition => do
    let labels ← Bind.fresh newLoop
    let (body, scope) ← stmt (BindContext.enter c labels) false scope body
    let condition ← valueOf c.file scope .bool condition
    return (.doWhile body condition labels, scope)
  | .forIn _ name range body => do
    let range ← loopRange c.file scope range
    let (v, inner) ← declareVar c scope.push name true .int none
    let labels ← Bind.fresh newLoop
    let (body, _) ← stmt (BindContext.enter c labels) false inner body
    return (.forIn v range body labels, scope)
  | .jump keyword => do
    return (← jump c keyword, scope)
  | .ret _ keyword none => do
    return (← returnStmt c keyword none, scope)
  | .ret _ keyword (some e) => do
    let bound ← value c.file scope e
    return (← returnStmt c keyword (some (e.textRange, bound)), scope)
  | .expr m e => do
    let bound ← expr c.file scope e
    if !(c.scriptMode && isGlobal) && !standsAlone bound then
      Bind.report c.file m.range .invalidExpressionStatement []
    return (.expr bound, scope)

def stmts (c : BindContext) (scope : Scope) : List Source.Stmt → Bind (Body × Scope)
  | [] => return ([], scope)
  | s :: ss => do
    let (bound, scope) ← stmt c false scope s
    let (rest, scope) ← stmts c scope ss
    return (bound :: rest, scope)

end

end ScriptLang.Binding
