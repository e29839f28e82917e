import ScriptLang.Binding.Unit

/-! Some functions of the binder do several things in a row. Here the later ones have names of their
own, so that a property of the whole can be shown part by part. -/

namespace ScriptLang.Binding

open Source (Token Name TypeClause)

def assignTo (file : Option String) (op : Token) (range : TextRange) (value : Expr) (v : Var) :
    Bind Expr :=
  match op.kind.compound? with
  | none => do return .assign v (← convert file range value v.ty false)
  | some kind => do
    let combined ← binary file op kind (.var v) value
    if combined.isError then return .error
    else return .assign v (← convert file range combined v.ty false)

theorem assign_eq (file : Option String) (scope : Scope) (target : Name) (op : Token)
    (range : TextRange) (value : Expr) :
    assign file scope target op range value = (do
      match ← resolveVar file scope target with
      | none => return .error
      | some v =>
        if v.readOnly then Bind.report file op.mark.range .cannotAssign [v.name]
        assignTo file op range value v) := rfl

/-- A call where the name of the callee is no conversion. -/
def callFn (file : Option String) (scope : Scope) (range : TextRange) (callee : Name)
    (sources : List Source.Expr) (args : List Expr) : Bind Expr :=
  match scope.lookup? callee.text with
  | some (.fn f) => do
    if args.length ≠ f.parameters.length then
      Bind.report file range .wrongArgumentCount
        [callee.text, toString f.parameters.length, toString args.length]
      return .error
    else return .call f (← convertArgs file sources args f.parameters)
  | some (.var _) => do
    Bind.report file callee.mark.range .notAFunction [callee.text]
    return .error
  | none => do
    Bind.report file callee.mark.range .undefinedFunction [callee.text]
    return .error

structure IsConversion (callee : Name) (sources : List Source.Expr) (args : List Expr) : Prop where
  named : ∃ ty, Ty.ofName? callee.text = some ty
  source : sources.length = 1
  arg : args.length = 1

theorem call_of_conversion {scope : Scope} {range : TextRange} {callee : Name}
    {source : Source.Expr} {arg : Expr} {ty : Ty} (named : Ty.ofName? callee.text = some ty) :
    call file scope range callee [source] [arg] = convert file source.textRange arg ty true := by
  unfold call
  rw [named]

theorem call_eq_callFn {scope : Scope} {range : TextRange} {callee : Name}
    {sources : List Source.Expr} {args : List Expr} (other : ¬IsConversion callee sources args) :
    call file scope range callee sources args = callFn file scope range callee sources args := by
  unfold call
  split
  next ty source arg named => exact (other ⟨⟨ty, named⟩, rfl, rfl⟩).elim
  next => rfl

def clauseType (file : Option String) : Option TypeClause → Bind (Option Ty)
  | some clause => type? file clause
  | none => pure none

theorem declaration_eq (c : BindContext) (scope : Scope) (keyword : Token) (name : Name)
    (type : Option TypeClause) (source : Source.Expr) :
    declaration c scope keyword name type source = (do
      let declared ← clauseType c.file type
      let bound ← value c.file scope source
      let ty := declared.getD bound.ty
      let bound ← convert c.file source.textRange bound ty false
      let (v, scope) ← declareVar c scope name (keyword.kind == .letKeyword) ty bound.constant?
      return (.declare v bound, scope)) := by
  unfold declaration
  cases type <;> rfl

def returnType (file : Option String) : Option Source.TypeClause → Bind Ty
  | some clause => do return (← type? file clause).getD .error
  | none => return .void

def makeFn (file : Option String) (scope : Scope) (f : Source.Function) (ps : List Var)
    (returns : Ty) : Bind (Fn × Scope) := do
  let fn ← Bind.fresh (Fn.create f.name.text ps returns (some f.mark.id))
  match scope.declare? f.name.text (.fn fn) with
  | some scope => return (fn, scope)
  | none =>
    Bind.report file f.name.mark.range .symbolAlreadyDeclared [f.name.text]
    return (fn, scope)

theorem declareFn_eq (file : Option String) (scope : Scope) (f : Source.Function) :
    declareFn file scope f = (do
      let ps ← parameters file [] f.parameters
      let returns ← returnType file f.returns
      makeFn file scope f ps returns) := by
  unfold declareFn
  refine bind_congr fun ps => ?_
  cases f.returns <;> rfl

theorem declareFns_append (file : Option String) (scope : Scope) (fs gs : List Source.Function) :
    declareFns file scope (fs ++ gs) = (do
      let (first, scope) ← declareFns file scope fs
      let (rest, scope) ← declareFns file scope gs
      return (first ++ rest, scope)) := by
  induction fs generalizing scope with
  | nil => rfl
  | cons f fs ih =>
    simp only [List.cons_append, declareFns, ih, bind_assoc, pure_bind]

theorem globals_append (c : BindContext) (scope : Scope) (ss ts : List Source.Stmt) :
    globals c scope (ss ++ ts) = (do
      let (first, scope) ← globals c scope ss
      let (rest, scope) ← globals c scope ts
      return (first ++ rest, scope)) := by
  induction ss generalizing scope with
  | nil => rfl
  | cons s ss ih =>
    simp only [List.cons_append, globals, ih, bind_assoc, pure_bind]

theorem functionBodies_append (c : BindContext) (scope : Scope)
    (ps qs : List (Fn × Source.Function)) :
    functionBodies c scope (ps ++ qs) = (do
      let first ← functionBodies c scope ps
      let rest ← functionBodies c scope qs
      return first ++ rest) := by
  induction ps with
  | nil =>
    simp only [List.nil_append, functionBodies, pure_bind, bind_pure]
  | cons p ps ih =>
    simp only [List.cons_append, functionBodies, ih, bind_assoc, pure_bind]

end ScriptLang.Binding
