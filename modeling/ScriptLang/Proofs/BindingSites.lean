import ScriptLang.Proofs.BindingNames
import ScriptLang.Proofs.BindingPasses

/-! The expressions of a tree, each with the scope in which binding comes to it. The scope in which a
statement is bound depends on what the statements before it have declared, so binding is followed
from state to state. What a name in an expression stands for is then read off its own scope. -/

namespace ScriptLang

/-- A symbol whose type is not lost. For a function that is the type of its result. -/
def Symbol.IsKnown : Symbol → Prop
  | .var v => v.ty ≠ .error
  | .fn f => f.returns ≠ .error

instance : DecidablePred Symbol.IsKnown
  | .var v => inferInstanceAs (Decidable (v.ty ≠ .error))
  | .fn f => inferInstanceAs (Decidable (f.returns ≠ .error))

namespace Binding

structure Site where
  scope : Scope
  /-- The expression is a statement of its own. -/
  alone : Bool
  expr : Source.Expr

def Site.IsKnown (site : Site) : Prop :=
  ∀ name ∈ site.expr.names, ∀ symbol ∈ site.scope.lookup? name, symbol.IsKnown

instance : DecidablePred Site.IsKnown := fun site =>
  inferInstanceAs (Decidable (∀ name ∈ site.expr.names, ∀ symbol ∈ site.scope.lookup? name,
    symbol.IsKnown))

mutual

/-- The sites of a statement, in the order of the tree, where it is bound from a state on. -/
def stmtSites (c : BindContext) (scope : Scope) (s : BindState) : Source.Stmt → List Site
  | .block _ body => stmtsSites c scope.push s body
  | .declare _ _ _ _ e | .ret _ _ (some e) => [⟨scope, false, e⟩]
  | .ifThen _ condition thenBody =>
    let tested := valueOf c.file scope .bool condition s
    ⟨scope, false, condition⟩ :: stmtSites c scope tested.2 thenBody
  | .ifElse _ condition thenBody elseBody =>
    let tested := valueOf c.file scope .bool condition s
    let chosen := stmt c false scope thenBody tested.2
    ⟨scope, false, condition⟩ ::
      (stmtSites c scope tested.2 thenBody ++ stmtSites c chosen.1.2 chosen.2 elseBody)
  | .whileDo _ condition body =>
    let tested := valueOf c.file scope .bool condition s
    let entered := Bind.fresh newLoop tested.2
    ⟨scope, false, condition⟩ :: stmtSites (BindContext.enter c entered.1) scope entered.2 body
  | .doWhile _ body condition =>
    let entered := Bind.fresh newLoop s
    let passed := stmt (BindContext.enter c entered.1) false scope body entered.2
    stmtSites (BindContext.enter c entered.1) scope entered.2 body ++
      [⟨passed.1.2, false, condition⟩]
  | .forIn _ name range body =>
    let ranged := loopRange c.file scope range s
    let counted := declareVar c scope.push name true .int none ranged.2
    let entered := Bind.fresh newLoop counted.2
    ⟨scope, false, range⟩ ::
      stmtSites (BindContext.enter c entered.1) counted.1.2 entered.2 body
  | .jump _ | .ret _ _ none => []
  | .expr _ e => [⟨scope, true, e⟩]

def stmtsSites (c : BindContext) (scope : Scope) (s : BindState) : List Source.Stmt → List Site
  | [] => []
  | t :: ts =>
    let bound := stmt c false scope t s
    stmtSites c scope s t ++ stmtsSites c bound.1.2 bound.2 ts

end

def globalsSites (c : BindContext) (scope : Scope) (s : BindState) : List Source.Stmt → List Site
  | [] => []
  | t :: ts =>
    let bound := stmt c true scope t s
    stmtSites c scope s t ++ globalsSites c bound.1.2 bound.2 ts

def bodyScope (scope : Scope) (fn : Fn) : Scope :=
  (fn.parameters.foldl (fun s p => (s.declare? p.name (.var p)).getD s) scope.push).push

def functionsSites (c : BindContext) (scope : Scope) (s : BindState) :
    List (Fn × Source.Function) → List (Fn × List Site)
  | [] => []
  | (fn, f) :: rest =>
    (fn, stmtsSites { c with function := some fn } (bodyScope scope fn) s f.body) ::
      functionsSites c scope (functionBody c scope fn f s).2 rest

section

variable (scriptMode : Bool) (file : Option String) (history : List Declarations)
  (u : Source.Unit) (next : Nat)

def entrySites : List Site :=
  let heads := headsPass file history u next
  globalsSites (unitContext scriptMode file u) heads.1.2 heads.2 u.statements

def declaredSites : List (Fn × List Site) :=
  functionsSites (unitContext scriptMode file u) (globalsPass scriptMode file history u next).1.2
    (entryPass scriptMode file history u next).2 (headsPass file history u next).1.1

/-- The sites of a unit, by the functions in whose code they stand. -/
def unitSites : List (Fn × List Site) :=
  declaredSites scriptMode file history u next ++
    (entryPass scriptMode file history u next).1.toList.map
      fun entry => (entry, entrySites scriptMode file history u next)

end

end Binding

end ScriptLang
