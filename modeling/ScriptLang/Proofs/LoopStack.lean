import ScriptLang.Binding.Unit

/-! Here the loops around a statement are not a part of its context but the contents of one stack, which
all passes over a unit share. The labels of a loop are pushed before its body is bound and popped
after it. This gives what binding gives, and every statement leaves the stack as it was. -/

namespace ScriptLang.Binding

open Source (Token)

/-- Binding with a stack of loops, the innermost on top. -/
abbrev StackBind := StateT (List LoopLabels) Bind

/-- `break` and `continue` look at the top of the stack. -/
def jumpOnStack (c : BindContext) (keyword : Token) : StackBind Stmt := fun loops => do
  return (← jump { c with loops } keyword, loops)

def pushLoop (labels : LoopLabels) : StackBind PUnit := fun loops => return (⟨⟩, labels :: loops)

def popLoop : StackBind PUnit := fun loops => return (⟨⟩, loops.tail)

def offStack {α : Type} (x : Bind α) : StackBind α := fun loops => return (← x, loops)

mutual

/-- Binds a statement on the stack of loops. Statements without statements in them, jumps apart, do
not look at it. -/
def stmtOnStack (c : BindContext) (isGlobal : Bool) (scope : Scope) :
    Source.Stmt → StackBind (Stmt × Scope)
  | .block _ body => do
    let (body, _) ← stmtsOnStack c scope.push body
    return (.block body, scope)
  | .ifThen _ condition thenBody => do
    let condition ← offStack (valueOf c.file scope .bool condition)
    let (thenBody, scope) ← stmtOnStack c false scope thenBody
    return (.ifThen condition thenBody, scope)
  | .ifElse _ condition thenBody elseBody => do
    let condition ← offStack (valueOf c.file scope .bool condition)
    let (thenBody, scope) ← stmtOnStack c false scope thenBody
    let (elseBody, scope) ← stmtOnStack c false scope elseBody
    return (.ifElse condition thenBody elseBody, scope)
  | .whileDo _ condition body => do
    let condition ← offStack (valueOf c.file scope .bool condition)
    let labels ← offStack (Bind.fresh newLoop)
    pushLoop labels
    let (body, scope) ← stmtOnStack c false scope body
    popLoop
    return (.whileDo condition body labels, scope)
  | .doWhile _ body condition => do
    let labels ← offStack (Bind.fresh newLoop)
    pushLoop labels
    let (body, scope) ← stmtOnStack c false scope body
    popLoop
    let condition ← offStack (valueOf c.file scope .bool condition)
    return (.doWhile body condition labels, scope)
  | .forIn _ name range body => do
    let range ← offStack (loopRange c.file scope range)
    let (v, inner) ← offStack (declareVar c scope.push name true .int none)
    let labels ← offStack (Bind.fresh newLoop)
    pushLoop labels
    let (body, _) ← stmtOnStack c false inner body
    popLoop
    return (.forIn v range body labels, scope)
  | .jump keyword => do
    return (← jumpOnStack c keyword, scope)
  | .declare m keyword name type value =>
    offStack (stmt c isGlobal scope (.declare m keyword name type value))
  | .ret m keyword value => offStack (stmt c isGlobal scope (.ret m keyword value))
  | .expr m e => offStack (stmt c isGlobal scope (.expr m e))

def stmtsOnStack (c : BindContext) (scope : Scope) : List Source.Stmt → StackBind (Body × Scope)
  | [] => return ([], scope)
  | s :: ss => do
    let (bound, scope) ← stmtOnStack c false scope s
    let (rest, scope) ← stmtsOnStack c scope ss
    return (bound :: rest, scope)

end

def globalsOnStack (c : BindContext) (scope : Scope) : List Source.Stmt → StackBind (Body × Scope)
  | [] => return ([], scope)
  | s :: ss => do
    let (bound, scope) ← stmtOnStack c true scope s
    let (rest, scope) ← globalsOnStack c scope ss
    return (bound :: rest, scope)

def functionBodyOnStack (c : BindContext) (scope : Scope) (fn : Fn) (f : Source.Function) :
    StackBind Body := do
  let inner := fn.parameters.foldl (fun s p => (s.declare? p.name (.var p)).getD s) scope.push
  let (body, _) ← stmtsOnStack { c with function := some fn } inner.push f.body
  return body

def functionBodiesOnStack (c : BindContext) (scope : Scope) :
    List (Fn × Source.Function) → StackBind (List (Fn × Body))
  | [] => return []
  | (fn, f) :: rest => do
    let body ← functionBodyOnStack c scope fn f
    return (fn, body) :: (← functionBodiesOnStack c scope rest)

def unitOnStack (scriptMode : Bool) (file : Option String) (history : List Declarations)
    (u : Source.Unit) : StackBind BoundUnit := do
  let c : BindContext := { file := file <|> u.file, scriptMode, function := none, loops := [] }
  let root ← offStack (Bind.fresh rootScope)
  let scope := (historyScope root history).push
  let (declared, scope) ← offStack (declareFns c.file scope u.functions)
  let (statements, scope) ← globalsOnStack c scope u.statements
  let entry ← offStack (entryFn? c scope declared (!statements.isEmpty))
  let bodies ← functionBodiesOnStack c scope declared
  let state ← offStack get
  return {
    declarations :=
      { diagnostics := state.diagnostics, entry, fns := scope.fns, vars := scope.vars }
    bodies := addEntry bodies entry statements }

/-- On this stack `x` does what `y` does, and leaves the stack as it was. -/
def Restores {α : Type} (loops : List LoopLabels) (x : StackBind α) (y : Bind α) : Prop :=
  x loops = do return (← y, loops)

namespace Restores

variable {α β : Type} {loops : List LoopLabels} {x : StackBind α} {y : Bind α}
  {f : α → StackBind β} {g : α → Bind β}

theorem pure (a : α) : Restores loops (Pure.pure a) (Pure.pure a) := rfl

theorem besides (y : Bind α) : Restores loops (offStack y) y := rfl

theorem bind (first : Restores loops x y) (second : ∀ a, Restores loops (f a) (g a)) :
    Restores loops (x >>= f) (y >>= g) := by
  show (x loops >>= fun p => f p.1 p.2) = _
  rw [first, bind_assoc]
  show (y >>= fun a => f a loops) = _
  simp only [bind_assoc]
  exact bind_congr second

/-- The body of a loop sees the labels of the loop on top, and they are gone after it. -/
theorem loop {labels : LoopLabels} (body : Restores (labels :: loops) x y)
    (second : ∀ a, Restores loops (f a) (g a)) :
    Restores loops (do pushLoop labels; let a ← x; popLoop; f a) (y >>= g) := by
  show (x (labels :: loops) >>= fun p => f p.1 p.2.tail) = _
  rw [body, bind_assoc]
  show (y >>= fun a => f a loops) = _
  simp only [bind_assoc]
  exact bind_congr second

end Restores

variable {c : BindContext} {scope : Scope} {loops : List LoopLabels}

open Restores (pure besides)

mutual

theorem stmtOnStack_restores {scope : Scope} {loops : List LoopLabels} (isGlobal : Bool)
    (s : Source.Stmt) :
    Restores loops (stmtOnStack c isGlobal scope s) (stmt { c with loops } isGlobal scope s) := by
  cases s with
  | block m body => exact (stmtsOnStack_restores body).bind fun _ => pure _
  | ifThen m condition t =>
    exact (besides _).bind fun _ => (stmtOnStack_restores false t).bind fun _ => pure _
  | ifElse m condition t e =>
    refine (besides _).bind fun _ => (stmtOnStack_restores false t).bind fun _ => ?_
    exact (stmtOnStack_restores false e).bind fun _ => pure _
  | whileDo m condition body =>
    refine (besides _).bind fun _ => (besides _).bind fun labels => ?_
    exact .loop (stmtOnStack_restores false body) fun _ => pure _
  | doWhile m body condition =>
    refine (besides _).bind fun labels => .loop (stmtOnStack_restores false body) fun _ => ?_
    exact (besides _).bind fun _ => pure _
  | forIn m name range body =>
    refine (besides _).bind fun _ => (besides _).bind fun _ => (besides _).bind fun labels => ?_
    exact .loop (stmtOnStack_restores false body) fun _ => pure _
  | jump keyword =>
    have reads : Restores loops (jumpOnStack c keyword) (jump { c with loops } keyword) := rfl
    exact reads.bind fun _ => pure _
  | declare m keyword name type source => rfl
  | ret m keyword value => cases value <;> rfl
  | expr m e => rfl

theorem stmtsOnStack_restores {scope : Scope} {loops : List LoopLabels} (ss : List Source.Stmt) :
    Restores loops (stmtsOnStack c scope ss) (stmts { c with loops } scope ss) := by
  cases ss with
  | nil => exact pure _
  | cons s ss =>
    refine (stmtOnStack_restores false s).bind fun _ => ?_
    exact (stmtsOnStack_restores ss).bind fun _ => pure _

end

theorem globalsOnStack_restores (ss : List Source.Stmt) :
    Restores loops (globalsOnStack c scope ss) (globals { c with loops } scope ss) := by
  induction ss generalizing scope with
  | nil => exact pure _
  | cons s ss ih =>
    exact (stmtOnStack_restores true s).bind fun _ => ih.bind fun _ => pure _

theorem functionBodyOnStack_restores (fn : Fn) (f : Source.Function) :
    Restores loops (functionBodyOnStack c scope fn f) (functionBody { c with loops } scope fn f) :=
  Restores.bind (stmtsOnStack_restores f.body) fun _ => pure _

theorem functionBodiesOnStack_restores (declared : List (Fn × Source.Function)) :
    Restores loops (functionBodiesOnStack c scope declared)
      (functionBodies { c with loops } scope declared) := by
  induction declared with
  | nil => exact pure _
  | cons p declared ih =>
    exact (functionBodyOnStack_restores p.1 p.2).bind fun _ => ih.bind fun _ => pure _

/-- A unit starts with an empty stack and leaves it empty. -/
theorem unitOnStack_restores (scriptMode : Bool) (file : Option String)
    (history : List Declarations) (u : Source.Unit) :
    Restores [] (unitOnStack scriptMode file history u) (unit scriptMode file history u) := by
  refine (besides _).bind fun root => (besides _).bind fun heads => ?_
  refine (globalsOnStack_restores u.statements).bind fun statements => ?_
  refine (besides _).bind fun entry => (functionBodiesOnStack_restores heads.1).bind fun bodies => ?_
  exact (besides get).bind fun state => pure _

end ScriptLang.Binding
