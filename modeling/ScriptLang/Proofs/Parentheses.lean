import Mathlib.Data.List.Forall2
import ScriptLang.Proofs.BindingNames
import ScriptLang.Proofs.BindingParts

/-! A pair of parentheses around an expression changes nothing: a unit with one more pair somewhere in it
is bound to the same bodies and the same declarations, with the same reports. The one place where
parentheses matter is around the bounds of a `for` loop, which have to stand directly behind `in`. -/

namespace ScriptLang

namespace Source

/-- In the second expression there is one more pair of parentheses, around the first expression or
around one inside of it. They stand where the expression in them stands. -/
inductive Expr.Wraps : Expr → Expr → Prop
  | here (e : Expr) (id : Nat) : Wraps e (.paren ⟨e.textRange, id⟩ e)
  | assign (m : Mark) (target : Name) (op : Token) {v v' : Expr} (inner : Wraps v v') :
      Wraps (.assign m target op v) (.assign m target op v')
  | unary (m : Mark) (op : Token) {e e' : Expr} (inner : Wraps e e') :
      Wraps (.unary m op e) (.unary m op e')
  | binaryLeft (m : Mark) (op : Token) (right : Expr) {l l' : Expr} (inner : Wraps l l') :
      Wraps (.binary m l op right) (.binary m l' op right)
  | binaryRight (m : Mark) (left : Expr) (op : Token) {r r' : Expr} (inner : Wraps r r') :
      Wraps (.binary m left op r) (.binary m left op r')
  | lower (m : Mark) (upper : Expr) {l l' : Expr} (inner : Wraps l l') :
      Wraps (.range m l upper) (.range m l' upper)
  | upper (m : Mark) (lower : Expr) {u u' : Expr} (inner : Wraps u u') :
      Wraps (.range m lower u) (.range m lower u')
  | paren (m : Mark) {e e' : Expr} (inner : Wraps e e') : Wraps (.paren m e) (.paren m e')
  | arg (m : Mark) (callee : Name) (before after : List Expr) {e e' : Expr} (inner : Wraps e e') :
      Wraps (.call m callee (before ++ e :: after)) (.call m callee (before ++ e' :: after))

/-- One more pair of parentheses in an expression of a statement. The bounds of a loop directly behind
`in` stay there: if the loop has them, then it has them in both. -/
inductive Stmt.Wraps : Stmt → Stmt → Prop
  | block (m : Mark) (before after : List Stmt) {s s' : Stmt} (inner : Wraps s s') :
      Wraps (.block m (before ++ s :: after)) (.block m (before ++ s' :: after))
  | declare (m : Mark) (keyword : Token) (name : Name) (type : Option TypeClause) {e e' : Expr}
      (inner : e.Wraps e') :
      Wraps (.declare m keyword name type e) (.declare m keyword name type e')
  | ifThenCondition (m : Mark) (thenBody : Stmt) {e e' : Expr} (inner : e.Wraps e') :
      Wraps (.ifThen m e thenBody) (.ifThen m e' thenBody)
  | ifThenBody (m : Mark) (condition : Expr) {s s' : Stmt} (inner : Wraps s s') :
      Wraps (.ifThen m condition s) (.ifThen m condition s')
  | ifElseCondition (m : Mark) (thenBody elseBody : Stmt) {e e' : Expr} (inner : e.Wraps e') :
      Wraps (.ifElse m e thenBody elseBody) (.ifElse m e' thenBody elseBody)
  | thenBody (m : Mark) (condition : Expr) (elseBody : Stmt) {s s' : Stmt} (inner : Wraps s s') :
      Wraps (.ifElse m condition s elseBody) (.ifElse m condition s' elseBody)
  | elseBody (m : Mark) (condition : Expr) (thenBody : Stmt) {s s' : Stmt} (inner : Wraps s s') :
      Wraps (.ifElse m condition thenBody s) (.ifElse m condition thenBody s')
  | whileCondition (m : Mark) (body : Stmt) {e e' : Expr} (inner : e.Wraps e') :
      Wraps (.whileDo m e body) (.whileDo m e' body)
  | whileBody (m : Mark) (condition : Expr) {s s' : Stmt} (inner : Wraps s s') :
      Wraps (.whileDo m condition s) (.whileDo m condition s')
  | doBody (m : Mark) (condition : Expr) {s s' : Stmt} (inner : Wraps s s') :
      Wraps (.doWhile m s condition) (.doWhile m s' condition)
  | doCondition (m : Mark) (body : Stmt) {e e' : Expr} (inner : e.Wraps e') :
      Wraps (.doWhile m body e) (.doWhile m body e')
  | loopRange (m : Mark) (name : Name) (body : Stmt) {e e' : Expr} (inner : e.Wraps e')
      (direct : e.kind = .rangeExpression → e'.kind = .rangeExpression) :
      Wraps (.forIn m name e body) (.forIn m name e' body)
  | loopBody (m : Mark) (name : Name) (range : Expr) {s s' : Stmt} (inner : Wraps s s') :
      Wraps (.forIn m name range s) (.forIn m name range s')
  | ret (m : Mark) (keyword : TextRange) {e e' : Expr} (inner : e.Wraps e') :
      Wraps (.ret m keyword (some e)) (.ret m keyword (some e'))
  | expr (m : Mark) {e e' : Expr} (inner : e.Wraps e') : Wraps (.expr m e) (.expr m e')

inductive Member.Wraps : Member → Member → Prop
  | function (f : Function) (before after : List Stmt) {s s' : Stmt} (inner : s.Wraps s') :
      Wraps (.function { f with body := before ++ s :: after })
        (.function { f with body := before ++ s' :: after })
  | statement (m : Mark) {s s' : Stmt} (inner : s.Wraps s') :
      Wraps (.statement m s) (.statement m s')

inductive Unit.Wraps : Unit → Unit → Prop
  | member (m : Mark) (file : Option String) (before after : List Member) {x x' : Member}
      (inner : x.Wraps x') : Wraps ⟨m, file, before ++ x :: after⟩ ⟨m, file, before ++ x' :: after⟩

theorem Expr.Wraps.textRange {e e' : Expr} (wraps : e.Wraps e') : e'.textRange = e.textRange := by
  cases wraps <;> rfl

end Source

namespace Binding

open Source (Token Name TypeClause)

variable {file : Option String} {scope : Scope}

/-- Of the arguments in the source only the places matter. -/
theorem convertArgs_places {sources sources' : List Source.Expr}
    (same : sources'.map Source.Expr.textRange = sources.map Source.Expr.textRange)
    (args : List Expr) (ps : List Var) :
    convertArgs file sources' args ps = convertArgs file sources args ps := by
  induction sources generalizing sources' args ps with
  | nil => rw [List.map_eq_nil_iff.1 same]
  | cons source sources ih =>
    obtain ⟨source', sources', rfl, first, rest⟩ := List.map_eq_cons_iff.1 same
    cases args with
    | nil => rfl
    | cons arg args =>
      cases ps with
      | nil => rfl
      | cons p ps =>
        simp only [convertArgs, first, ih rest]

theorem call_places {sources sources' : List Source.Expr}
    (same : sources'.map Source.Expr.textRange = sources.map Source.Expr.textRange)
    (range : TextRange) (callee : Name) (args : List Expr) :
    call file scope range callee sources' args = call file scope range callee sources args := by
  have length : sources'.length = sources.length := by simpa using congrArg List.length same
  by_cases conversion : IsConversion callee sources args
  · obtain ⟨⟨ty, named⟩, one, oneArg⟩ := conversion
    obtain ⟨source, rfl⟩ := List.length_eq_one_iff.1 one
    obtain ⟨source', rfl⟩ := List.length_eq_one_iff.1 (length.trans one)
    obtain ⟨arg, rfl⟩ := List.length_eq_one_iff.1 oneArg
    have place : source'.textRange = source.textRange := (List.cons.inj same).1
    rw [call_of_conversion named, call_of_conversion named, place]
  · have other : ¬IsConversion callee sources' args := fun ⟨named, source, arg⟩ =>
      conversion ⟨named, length.symm.trans source, arg⟩
    rw [call_eq_callFn other, call_eq_callFn conversion]
    simp only [callFn, convertArgs_places same]

theorem exprs_part {e e' : Source.Expr} (same : expr file scope e' = expr file scope e)
    (place : e'.textRange = e.textRange) (before after : List Source.Expr) :
    exprs file scope (before ++ e' :: after) = exprs file scope (before ++ e :: after) := by
  induction before with
  | nil => simp only [List.nil_append, exprs, same, place]
  | cons first before ih => simp only [List.cons_append, exprs, ih]

theorem expr_wraps {e e' : Source.Expr} (wraps : e.Wraps e') :
    expr file scope e' = expr file scope e := by
  induction wraps with
  | here e id => rw [expr]
  | assign m target op inner ih | unary m op inner ih | binaryLeft m op right inner ih
  | binaryRight m left op inner ih | lower m upper inner ih | upper m lower inner ih =>
    simp only [expr, ih, inner.textRange]
  | paren m inner ih => simp only [expr, ih]
  | @arg m callee before after e e' inner ih =>
    have places : (before ++ e' :: after).map Source.Expr.textRange =
        (before ++ e :: after).map Source.Expr.textRange := by
      simp [inner.textRange]
    simp only [expr, exprs_part ih inner.textRange, call_places places]

section

variable {e e' : Source.Expr} (wraps : e.Wraps e')

include wraps

theorem value_wraps : value file scope e' = value file scope e := by
  simp only [value, expr_wraps wraps, wraps.textRange]

theorem valueOf_wraps (target : Ty) : valueOf file scope target e' = valueOf file scope target e := by
  simp only [valueOf, value_wraps wraps, wraps.textRange]

theorem loopRange_wraps (direct : e.kind = .rangeExpression → e'.kind = .rangeExpression) :
    loopRange file scope e' = loopRange file scope e := by
  cases wraps with
  | here e id =>
    -- Both are refused at the same place, unless the inner one is a range.
    cases e with
    | range m lower upper => exact absurd (direct rfl) (by simp [Source.Expr.kind])
    | _ => rfl
  | lower m upper inner | upper m lower inner =>
    simp only [loopRange, value_wraps inner, valueOf_wraps inner, inner.textRange]
  | _ => rfl

end

theorem declaration_wraps {c : BindContext} {keyword : Token} {name : Name}
    {type : Option TypeClause} {e e' : Source.Expr} (wraps : e.Wraps e') :
    declaration c scope keyword name type e' = declaration c scope keyword name type e := by
  simp only [declaration_eq, value_wraps wraps, wraps.textRange]

theorem stmts_part {s s' : Source.Stmt} {c : BindContext}
    (same : ∀ scope, stmt c false scope s' = stmt c false scope s) (before after : List Source.Stmt)
    (scope : Scope) :
    stmts c scope (before ++ s' :: after) = stmts c scope (before ++ s :: after) := by
  induction before generalizing scope with
  | nil => simp only [List.nil_append, stmts, same]
  | cons first before ih => simp only [List.cons_append, stmts, ih]

theorem stmt_wraps {s s' : Source.Stmt} (wraps : s.Wraps s') (c : BindContext) (isGlobal : Bool)
    (scope : Scope) : stmt c isGlobal scope s' = stmt c isGlobal scope s := by
  induction wraps generalizing c isGlobal scope with
  | block m before after inner ih => simp only [stmt, stmts_part (ih c false)]
  | declare m keyword name type inner => simp only [stmt, declaration_wraps inner]
  | ifThenCondition m thenBody inner => simp only [stmt, valueOf_wraps inner]
  | ifElseCondition m thenBody elseBody inner => simp only [stmt, valueOf_wraps inner]
  | whileCondition m body inner => simp only [stmt, valueOf_wraps inner]
  | doCondition m body inner => simp only [stmt, valueOf_wraps inner]
  | loopRange m name body inner direct => simp only [stmt, loopRange_wraps inner direct]
  | ifThenBody _ _ _ ih | thenBody _ _ _ _ ih | elseBody _ _ _ _ ih | whileBody _ _ _ ih
  | doBody _ _ _ ih | loopBody _ _ _ _ ih => simp only [stmt, ih]
  | ret m keyword inner => simp only [stmt, value_wraps inner, inner.textRange]
  | expr m inner => simp only [stmt, expr_wraps inner]

/-- The functions have the same head, and their bodies are bound the same way. -/
structure BoundAlike (f f' : Source.Function) : Prop where
  head : { f with body := f'.body } = f'
  body : ∀ c scope, stmts c scope f'.body = stmts c scope f.body

theorem BoundAlike.refl (f : Source.Function) : BoundAlike f f := ⟨rfl, fun _ _ => rfl⟩

theorem BoundAlike.name {f f' : Source.Function} (alike : BoundAlike f f') : f.name = f'.name := by
  rw [← alike.head]

theorem BoundAlike.declareFn {f f' : Source.Function} (alike : BoundAlike f f') :
    declareFn file scope f' = declareFn file scope f := by
  rw [← alike.head]
  rfl

theorem BoundAlike.functionBody {f f' : Source.Function} (alike : BoundAlike f f') (c : BindContext)
    (fn : Fn) : functionBody c scope fn f' = functionBody c scope fn f := by
  simp only [Binding.functionBody, alike.body]

structure DeclaredAlike (p p' : Fn × Source.Function) : Prop where
  fn : p.1 = p'.1
  source : BoundAlike p.2 p'.2

theorem declareFns_alike {fs fs' : List Source.Function} (alike : List.Forall₂ BoundAlike fs fs') :
    Bind.Matches (fun r r' => List.Forall₂ DeclaredAlike r.1 r'.1 ∧ r.2 = r'.2)
      (declareFns file scope fs) (declareFns file scope fs') := by
  induction alike generalizing scope with
  | nil => exact .pure ⟨.nil, rfl⟩
  | cons first _ ih =>
    unfold declareFns
    refine .afterSame first.declareFn.symm fun made => ?_
    refine ih.bind fun r r' rest => ?_
    exact .pure ⟨.cons ⟨rfl, first⟩ rest.1, rest.2⟩

theorem find?_alike {declared declared' : List (Fn × Source.Function)}
    (alike : List.Forall₂ DeclaredAlike declared declared') (id : Nat) :
    (declared.find? (·.1.id = id)).map (·.2.name) = (declared'.find? (·.1.id = id)).map (·.2.name) := by
  induction alike with
  | nil => rfl
  | @cons p p' _ _ first _ ih =>
    rw [List.find?_cons, List.find?_cons, first.fn]
    cases decide (p'.1.id = id) with
    | true => exact congrArg some first.source.name
    | false => exact ih

theorem entryFn?_alike {declared declared' : List (Fn × Source.Function)} {c : BindContext}
    {hasGlobals : Bool} (alike : List.Forall₂ DeclaredAlike declared declared') :
    entryFn? c scope declared hasGlobals = entryFn? c scope declared' hasGlobals := by
  unfold entryFn?
  split
  · rfl
  · split
    · rfl
    · next main _ =>
      have found := find?_alike alike main.id
      generalize declared.find? (·.1.id = main.id) = one at found ⊢
      generalize declared'.find? (·.1.id = main.id) = other at found ⊢
      cases one with
      | none =>
        obtain rfl : other = none := by simpa using found.symm
        rfl
      | some p =>
        obtain ⟨p', rfl, name⟩ := Option.map_eq_some_iff.1 found.symm
        dsimp only
        rw [name]

theorem functionBodies_alike {declared declared' : List (Fn × Source.Function)} {c : BindContext}
    (alike : List.Forall₂ DeclaredAlike declared declared') :
    functionBodies c scope declared = functionBodies c scope declared' := by
  induction alike with
  | nil => rfl
  | @cons p p' _ _ first _ ih =>
    obtain ⟨fn, f⟩ := p
    obtain ⟨fn', f'⟩ := p'
    obtain ⟨rfl, source⟩ := first
    simp only [functionBodies, source.functionBody, ih]

theorem unit_alike {scriptMode : Bool} {history : List Declarations} {u u' : Source.Unit}
    (sameFile : u.file = u'.file) (functions : List.Forall₂ BoundAlike u.functions u'.functions)
    (statements : ∀ c scope, globals c scope u.statements = globals c scope u'.statements) :
    Bind.Matches Eq (unit scriptMode file history u) (unit scriptMode file history u') := by
  unfold unit
  rw [sameFile]
  refine .after _ fun root => ?_
  refine (declareFns_alike functions).bind fun (fns, behind) (fns', behind') ⟨declared, same⟩ => ?_
  obtain rfl : behind = behind' := same
  refine .afterSame (statements _ _) fun t => .afterSame (entryFn?_alike declared) fun entry => ?_
  exact .afterSame (functionBodies_alike declared) fun bodies => .refl _

theorem functions_wraps {u u' : Source.Unit} (wraps : u.Wraps u') :
    List.Forall₂ BoundAlike u.functions u'.functions := by
  have same (fs : List Source.Function) : List.Forall₂ BoundAlike fs fs :=
    List.forall₂_same.2 fun f _ => .refl f
  obtain ⟨m, file, before, after, inner⟩ := wraps
  simp only [Source.Unit.functions, List.filterMap_append, List.filterMap_cons]
  refine List.rel_append (same _) ?_
  cases inner with
  | function f front back inner =>
    exact .cons ⟨rfl, fun c => stmts_part (stmt_wraps inner c false) front back⟩ (same _)
  | statement m inner => exact same _

theorem globals_part {s s' : Source.Stmt} {c : BindContext}
    (same : ∀ scope, stmt c true scope s' = stmt c true scope s) (before after : List Source.Stmt)
    (scope : Scope) :
    globals c scope (before ++ s' :: after) = globals c scope (before ++ s :: after) := by
  induction before generalizing scope with
  | nil => simp only [List.nil_append, globals, same]
  | cons first before ih => simp only [List.cons_append, globals, ih]

theorem statements_wraps {u u' : Source.Unit} (wraps : u.Wraps u') (c : BindContext) (scope : Scope) :
    globals c scope u.statements = globals c scope u'.statements := by
  obtain ⟨m, file, before, after, inner⟩ := wraps
  simp only [Source.Unit.statements, List.filterMap_append, List.filterMap_cons]
  cases inner with
  | function f front back inner => rfl
  | statement m inner => exact (globals_part (stmt_wraps inner c true) _ _ scope).symm

end Binding

/-- A unit with one more pair of parentheses around an expression in it is bound to the same bodies and
declarations, with the same reports and the same numbers for its symbols. -/
theorem bindUnit_parenthesized {u u' : Source.Unit} (wraps : u.Wraps u') (scriptMode : Bool)
    (file : Option String) (history : List Declarations) (next : Nat) :
    bindUnit scriptMode file history u' next = bindUnit scriptMode file history u next := by
  have sameFile : u.file = u'.file := by cases wraps; rfl
  have alike : Bind.Matches Eq (Binding.unit scriptMode file history u)
      (Binding.unit scriptMode file history u') :=
    Binding.unit_alike sameFile (Binding.functions_wraps wraps) (Binding.statements_wraps wraps)
  obtain ⟨bound, state⟩ := alike ⟨next, .empty⟩
  unfold bindUnit
  rw [Prod.ext bound state]

namespace Parentheses

def loopOver (range : Source.Expr) : Source.Unit :=
  ⟨⟨⟨0, 12⟩, 9⟩, none,
    [.statement ⟨⟨4, 12⟩, 8⟩
      (.forIn ⟨⟨4, 12⟩, 7⟩ ⟨⟨⟨4, 5⟩, 6⟩, "i"⟩ range (.block ⟨⟨10, 12⟩, 5⟩ []))]⟩

def upTo (upper : Source.Expr) : Source.Expr :=
  .range ⟨⟨6, 9⟩, 4⟩ (.literal ⟨⟨6, 7⟩, 3⟩ (.int 1)) upper

def three : Source.Expr := .literal ⟨⟨8, 9⟩, 2⟩ (.int 3)

def printed : Source.Expr := .call ⟨⟨8, 9⟩, 1⟩ ⟨⟨⟨8, 9⟩, 0⟩, "print"⟩ [three]

def enclosed (e : Source.Expr) : Source.Expr := .paren ⟨e.textRange, 10⟩ e

def reports (u : Source.Unit) : List Nat :=
  (bindUnit false none [] u 0).1.declarations.diagnostics.items.map Diagnostic.code

end Parentheses

open Parentheses

/-- `1..(print(3))` has the same mistake as `1..print(3)`: the upper bound has no value. -/
theorem enclosedBound_parenthesized :
    (loopOver (upTo printed)).Wraps (loopOver (upTo (enclosed printed))) ∧
      bindUnit false none [] (loopOver (upTo (enclosed printed))) 0 =
        bindUnit false none [] (loopOver (upTo printed)) 0 ∧
      reports (loopOver (upTo printed)) = [Message.expressionMustHaveValue.code] := by
  have wraps : (loopOver (upTo printed)).Wraps (loopOver (upTo (enclosed printed))) :=
    .member _ _ [] [] (.statement _ (.loopRange _ _ _ (.upper _ _ (.here _ _)) id))
  exact ⟨wraps, bindUnit_parenthesized wraps false none [] 0, by decide +kernel⟩

/-- `for i in (1..3) { }` is refused, and `for i in 1..3 { }` is not. -/
theorem enclosedBounds_refused :
    (upTo three).Wraps (enclosed (upTo three)) ∧
      reports (loopOver (upTo three)) = [] ∧
      reports (loopOver (enclosed (upTo three))) = [Message.forRequiresRange.code] :=
  ⟨.here _ _, by decide +kernel, by decide +kernel⟩

end ScriptLang
