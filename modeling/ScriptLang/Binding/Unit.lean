import ScriptLang.Binding.Stmt

/-! A unit is bound in three passes: the heads of its functions, so that calls may refer to
functions declared later; its global statements, which become the entry function; the
bodies of its functions. A unit sees the declarations of the units before it, the newest
first, and the builtins behind them. -/

namespace ScriptLang

structure Declarations where
  diagnostics : Diagnostics
  /-- The function at which the unit starts to run, if it has one. -/
  entry : Option Fn
  fns : List Fn
  vars : List Var
  deriving Inhabited

/-- A unit after binding. Declared functions come first, the entry function last. -/
structure BoundUnit where
  declarations : Declarations
  bodies : List (Fn × Body)
  deriving Inhabited

namespace Binding

def mainName : String := "main"

def scriptName : String := "$eval"

def rootScope : Fresh Scope := do
  let fns ← Builtin.all.mapM Builtin.createFn
  return fns.foldl (fun s f => s.replace f.name (.fn f)) Scope.root

/-- Declares what a unit declares, in place of older declarations of the same names. -/
def addDeclarations (scope : Scope) (d : Declarations) : Scope :=
  d.vars.foldl (fun s v => s.replace v.name (.var v))
    (d.fns.foldl (fun s f => s.replace f.name (.fn f)) scope)

/-- One scope for all earlier units; `history` has the newest first. -/
def historyScope (root : Scope) (history : List Declarations) : Scope :=
  history.reverse.foldl addDeclarations root.push

/-- The parameters of a function, after those in `done`. A repeated name is reported and
left out. -/
def parameters (file : Option String) (done : List Var) : List Source.Parameter → Bind (List Var)
  | [] => return done
  | p :: ps => do
    let ty := (← type? file p.type).getD .error
    if done.any (·.name = p.name.text) then
      Bind.report file p.name.mark.range .parameterAlreadyDeclared [p.name.text]
      parameters file done ps
    else
      let v ← Bind.fresh (Var.createParameter p.name.text ty done.length)
      parameters file (done ++ [v]) ps

def declareFn (file : Option String) (scope : Scope) (f : Source.Function) :
    Bind (Fn × Scope) := do
  let ps ← parameters file [] f.parameters
  let returns ← match f.returns with
    | some clause => do pure ((← type? file clause).getD .error)
    | none => pure Ty.void
  let fn ← Bind.fresh (Fn.create f.name.text ps returns (some f.mark.id))
  match scope.declare? f.name.text (.fn fn) with
  | some scope => return (fn, scope)
  | none =>
    Bind.report file f.name.mark.range .symbolAlreadyDeclared [f.name.text]
    return (fn, scope)

def declareFns (file : Option String) (scope : Scope) :
    List Source.Function → Bind (List (Fn × Source.Function) × Scope)
  | [] => return ([], scope)
  | f :: fs => do
    let (fn, scope) ← declareFn file scope f
    let (rest, scope) ← declareFns file scope fs
    return ((fn, f) :: rest, scope)

def globals (c : BindContext) (scope : Scope) : List Source.Stmt → Bind (Body × Scope)
  | [] => return ([], scope)
  | s :: ss => do
    let (bound, scope) ← stmt c true scope s
    let (rest, scope) ← globals c scope ss
    return (bound :: rest, scope)

/-- The entry function. A script has one of its own. In a program it is the declared
`main`, which must fit the role and excludes global statements, or a function for the
global statements if there are any. -/
def entryFn? (c : BindContext) (scope : Scope) (declared : List (Fn × Source.Function))
    (hasGlobals : Bool) : Bind (Option Fn) := do
  if c.scriptMode then
    return some (← Bind.fresh (Fn.create scriptName [] .void none))
  else
    match (scope.lookupLocal? mainName).bind Symbol.fn? with
    | none =>
      if hasGlobals then return some (← Bind.fresh (Fn.create mainName [] .void none))
      else return none
    | some main =>
      match declared.find? (·.1.id = main.id) with
      | none => return some main
      | some (_, f) =>
        if !main.parameters.isEmpty || main.returns != .void then
          Bind.report c.file f.name.mark.range .mainMustHaveCorrectSignature []
        if hasGlobals then
          Bind.report c.file f.name.mark.range .cannotMixMainAndGlobalStatements []
        return some main

def functionBody (c : BindContext) (scope : Scope) (fn : Fn) (f : Source.Function) : Bind Body := do
  let inner := fn.parameters.foldl (fun s p => (s.declare? p.name (.var p)).getD s) scope.push
  let (body, _) ← stmts { c with function := some fn } inner.push f.body
  return body

def functionBodies (c : BindContext) (scope : Scope) :
    List (Fn × Source.Function) → Bind (List (Fn × Body))
  | [] => return []
  | (fn, f) :: rest => do
    let body ← functionBody c scope fn f
    return (fn, body) :: (← functionBodies c scope rest)

/-- Adds the body of the entry function, unless it is one of the declared functions. -/
def addEntry (bodies : List (Fn × Body)) (entry : Option Fn) (statements : Body) :
    List (Fn × Body) :=
  match entry with
  | none => bodies
  | some e => if bodies.any (·.1.id = e.id) then bodies else bodies ++ [(e, statements)]

/-- Binds a unit behind the units of `history`, the newest of them first. -/
def unit (scriptMode : Bool) (file : Option String) (history : List Declarations)
    (u : Source.Unit) : Bind BoundUnit := do
  let c : BindContext := { file := file <|> u.file, scriptMode, function := none, loops := [] }
  let root ← Bind.fresh rootScope
  let scope := (historyScope root history).push
  let (declared, scope) ← declareFns c.file scope u.functions
  let (statements, scope) ← globals c scope u.statements
  let entry ← entryFn? c scope declared (!statements.isEmpty)
  let bodies ← functionBodies c scope declared
  let state ← get
  return {
    declarations :=
      { diagnostics := state.diagnostics, entry, fns := scope.fns, vars := scope.vars }
    bodies := addEntry bodies entry statements }

end Binding

def bindUnit (scriptMode : Bool) (file : Option String) (history : List Declarations)
    (u : Source.Unit) : Fresh BoundUnit := fun next =>
  let (bound, state) := Binding.unit scriptMode file history u ⟨next, .empty⟩
  (bound, state.nextId)

def bindUnits (scriptMode : Bool) (file : Option String) (history : List Declarations) :
    List Source.Unit → Fresh (List BoundUnit)
  | [] => return []
  | u :: us => do
    let bound ← bindUnit scriptMode file history u
    return bound :: (← bindUnits scriptMode file (bound.declarations :: history) us)

end ScriptLang
