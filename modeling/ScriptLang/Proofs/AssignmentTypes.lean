import Mathlib.Data.List.Forall2
import ScriptLang.Proofs.BindingParts
import ScriptLang.Proofs.BindingSites
import ScriptLang.Proofs.MisspeltNames

/-! An assignment has the type of its value, once this is converted to the type of the variable. To a
variable whose type is lost, a value is assigned as it is, so where the assignment is used as a value
in turn, it may have another type than it would have had. Such assignments are told from the others by
their types: these are listed in the order of the tree, and compared with those in another tree.

The type of an expression depends on the scope only, and not on what was bound before. -/

namespace ScriptLang

/-- The type is the same one, or it is lost. -/
def Ty.Spoilt (t t' : Ty) : Prop := t' = t ∨ t' = .error

instance : DecidableRel Ty.Spoilt := fun _ _ => inferInstanceAs (Decidable (_ ∨ _))

def Bind.Steady {α : Type} (x : Bind α) : Prop := ∀ s t, (x s).1 = (x t).1

namespace Bind.Steady

variable {α β : Type}

theorem pure (a : α) : Steady (Pure.pure a : Bind α) := fun _ _ => rfl

theorem bind {x : Bind α} {f : α → Bind β} (first : Steady x) (second : ∀ a, Steady (f a)) :
    Steady (x >>= f) := by
  intro s t
  show (f (x s).1 (x s).2).1 = (f (x t).1 (x t).2).1
  rw [first s t]
  exact second _ _ _

/-- Reports are seen in the state only. -/
theorem reported {file : Option String} {range : TextRange} {m : Message} {args : List String}
    {f : PUnit → Bind α} (second : Steady (f ⟨⟩)) : Steady (Bind.report file range m args >>= f) :=
  bind (fun _ _ => rfl) fun _ => second

end Bind.Steady

namespace Binding

open Source (Token Name Misspelling)

variable {file : Option String}

theorem requireValue_steady (range : TextRange) (e : Expr) : (requireValue file range e).Steady := by
  unfold requireValue
  split
  · exact .reported (.pure _)
  · exact .pure _

theorem convert_steady (range : TextRange) (e : Expr) (t : Ty) (explicit : Bool) :
    (convert file range e t explicit).Steady := by
  unfold convert
  split
  · exact .pure _
  · split
    · exact .reported (.pure _)
    · exact .pure _
    · exact .pure _
    · split
      · exact .reported (.pure _)
      · exact .pure _

theorem resolveVar_steady (scope : Scope) (name : Name) : (resolveVar file scope name).Steady := by
  unfold resolveVar
  split
  · exact .pure _
  · exact .reported (.pure _)
  · exact .reported (.pure _)

theorem unary_steady (op : Token) (e : Expr) : (unary file op e).Steady := by
  unfold unary
  split
  · exact .pure _
  · split
    · exact .pure _
    · exact .reported (.pure _)

theorem binary_steady (op : Token) (kind : Source.Kind) (l r : Expr) :
    (binary file op kind l r).Steady := by
  unfold binary
  split
  · exact .pure _
  · split
    · exact .pure _
    · exact .reported (.pure _)

theorem assignTo_steady (op : Token) (range : TextRange) (value : Expr) (v : Var) :
    (assignTo file op range value v).Steady := by
  have converted (e : Expr) : Bind.Steady (do return Expr.assign v (← convert file range e v.ty false)) :=
    (convert_steady range e v.ty false).bind fun _ => .pure _
  unfold assignTo
  split
  · exact converted value
  · refine (binary_steady op _ _ _).bind fun combined => ?_
    split
    · exact .pure _
    · exact converted combined

theorem assign_steady (scope : Scope) (target : Name) (op : Token) (range : TextRange) (value : Expr) :
    (assign file scope target op range value).Steady := by
  rw [assign_eq]
  refine (resolveVar_steady scope target).bind fun v? => ?_
  cases v? with
  | none => exact .pure _
  | some v =>
    dsimp only
    split
    · exact .reported (assignTo_steady op range value v)
    · exact assignTo_steady op range value v

theorem convertArgs_steady (sources : List Source.Expr) (args : List Expr) (ps : List Var) :
    (convertArgs file sources args ps).Steady := by
  induction sources generalizing args ps with
  | nil => exact .pure _
  | cons source sources ih =>
    cases args with
    | nil => exact .pure _
    | cons arg args =>
      cases ps with
      | nil => exact .pure _
      | cons p ps => exact (convert_steady _ arg _ _).bind fun _ => (ih args ps).bind fun _ => .pure _

theorem call_steady (scope : Scope) (range : TextRange) (callee : Name) (sources : List Source.Expr)
    (args : List Expr) : (call file scope range callee sources args).Steady := by
  by_cases conversion : IsConversion callee sources args
  · obtain ⟨⟨ty, named⟩, oneSource, oneArg⟩ := conversion
    obtain ⟨source, rfl⟩ := List.length_eq_one_iff.1 oneSource
    obtain ⟨arg, rfl⟩ := List.length_eq_one_iff.1 oneArg
    rw [call_of_conversion named]
    exact convert_steady _ arg ty true
  · rw [call_eq_callFn conversion]
    unfold callFn
    split
    · split
      · exact .reported (.pure _)
      · exact (convertArgs_steady sources args _).bind fun _ => .pure _
    · exact .reported (.pure _)
    · exact .reported (.pure _)

mutual

theorem expr_steady (scope : Scope) (e : Source.Expr) : (expr file scope e).Steady := by
  cases e with
  | literal _ v => exact .pure _
  | name _ n =>
    unfold expr
    refine (resolveVar_steady scope n).bind fun v? => ?_
    cases v? <;> exact .pure _
  | assign _ target op e =>
    unfold expr
    refine (expr_steady scope e).bind fun _ => (requireValue_steady _ _).bind fun _ => ?_
    exact assign_steady scope target op _ _
  | unary _ op e =>
    unfold expr
    exact (expr_steady scope e).bind fun _ => (requireValue_steady _ _).bind fun _ => unary_steady op _
  | paren _ e =>
    unfold expr
    exact expr_steady scope e
  | binary _ l op r =>
    unfold expr
    refine (expr_steady scope l).bind fun _ => (requireValue_steady _ _).bind fun _ => ?_
    refine (expr_steady scope r).bind fun _ => (requireValue_steady _ _).bind fun _ => ?_
    exact binary_steady op _ _ _
  | range _ l r =>
    unfold expr
    refine (expr_steady scope l).bind fun _ => (requireValue_steady _ _).bind fun _ => ?_
    refine (expr_steady scope r).bind fun _ => (requireValue_steady _ _).bind fun _ => ?_
    exact .reported (.pure _)
  | call _ callee args =>
    unfold expr
    exact (exprs_steady scope args).bind fun _ => call_steady scope _ callee args _

theorem exprs_steady (scope : Scope) (es : List Source.Expr) : (exprs file scope es).Steady := by
  cases es with
  | nil => exact .pure _
  | cons e es =>
    unfold exprs
    refine (expr_steady scope e).bind fun _ => (requireValue_steady _ _).bind fun _ => ?_
    exact (exprs_steady scope es).bind fun _ => .pure _

end

def typeOf (file : Option String) (scope : Scope) (e : Source.Expr) : Ty :=
  (expr file scope e ⟨0, .empty⟩).1.ty

theorem ty_expr (file : Option String) (scope : Scope) (e : Source.Expr) (s : BindState) :
    (expr file scope e s).1.ty = typeOf file scope e :=
  congrArg Expr.ty (expr_steady scope e s ⟨0, .empty⟩)

section

variable (file : Option String) (scope : Scope)

mutual

/-- The types of the plain assignments in an expression that are used as values. -/
def plainTypes (alone : Bool) : Source.Expr → List Ty
  | .literal _ _ | .name _ _ => []
  | .assign m target op e => plainTypes false e ++
    if alone || op.kind.compound?.isSome then [] else [typeOf file scope (.assign m target op e)]
  | .unary _ _ e => plainTypes false e
  | .paren _ e => plainTypes alone e
  | .binary _ l _ r | .range _ l r => plainTypes false l ++ plainTypes false r
  | .call _ _ args => plainTypesOf args

def plainTypesOf : List Source.Expr → List Ty
  | [] => []
  | e :: es => plainTypes false e ++ plainTypesOf es

end

end

def Site.plainTypes (file : Option String) (site : Site) : List Ty :=
  Binding.plainTypes file site.scope site.alone site.expr

def sitesPlainTypes (file : Option String) (sites : List Site) : List Ty :=
  sites.flatMap (·.plainTypes file)

@[simp] theorem sitesPlainTypes_nil : sitesPlainTypes file [] = [] := rfl

@[simp] theorem sitesPlainTypes_cons (site : Site) (sites : List Site) :
    sitesPlainTypes file (site :: sites) =
      plainTypes file site.scope site.alone site.expr ++ sitesPlainTypes file sites :=
  List.flatMap_cons

@[simp] theorem sitesPlainTypes_append (sites sites' : List Site) :
    sitesPlainTypes file (sites ++ sites') = sitesPlainTypes file sites ++ sitesPlainTypes file sites' :=
  List.flatMap_append

def unitPlainTypes (scriptMode : Bool) (file : Option String) (history : List Declarations)
    (u : Source.Unit) (next : Nat) : List Ty :=
  sitesPlainTypes (file <|> u.file) (entrySites scriptMode file history u next ++
    (declaredSites scriptMode file history u next).flatMap Prod.snd)

mutual

/-- A misspelt form of an expression has as many assignments. -/
theorem length_plainTypes {ds : List Misspelling} {e e' : Source.Expr} (spelt : e.Misspelt ds e')
    (alone : Bool) (a b : Scope) :
    (plainTypes file b alone e').length = (plainTypes file a alone e).length := by
  cases spelt with
  | literal | name _ => rfl
  | assign kind value _ =>
    have inValue := length_plainTypes value false a b
    simp only [plainTypes, kind, List.length_append, inValue]
    split <;> rfl
  | unary _ spelt | paren spelt => exact length_plainTypes spelt _ a b
  | binary _ left right | range left right =>
    have inLeft := length_plainTypes left false a b
    have inRight := length_plainTypes right false a b
    simp only [plainTypes, List.length_append, inLeft, inRight]
  | call args _ => exact length_plainTypesOf args a b

theorem length_plainTypesOf {ds : List Misspelling} {es es' : List Source.Expr}
    (spelt : Source.Expr.AllMisspelt ds es es') (a b : Scope) :
    (plainTypesOf file b es').length = (plainTypesOf file a es).length := by
  cases spelt with
  | nil => rfl
  | cons first rest =>
    have inFirst := length_plainTypes first false a b
    have inRest := length_plainTypesOf rest a b
    simp only [plainTypesOf, List.length_append, inFirst, inRest]

end

mutual

theorem length_stmtSites {ds : List Misspelling} {t t' : Source.Stmt} (spelt : t.Misspelt ds t')
    (c c' : BindContext) (a b : Scope) (s s' : BindState) :
    (sitesPlainTypes file (stmtSites c' b s' t')).length =
      (sitesPlainTypes file (stmtSites c a s t)).length := by
  cases spelt with
  | block body => exact length_stmtsSites body c c' _ _ s s'
  | declare _ _ _ spelt | retValue spelt | expr spelt =>
    simp [stmtSites, length_plainTypes spelt _ a b]
  | ifThen condition body | whileDo condition body =>
    simp only [stmtSites, sitesPlainTypes_cons, List.length_append]
    exact congrArg₂ (· + ·) (length_plainTypes condition _ a b) (length_stmtSites body _ _ _ _ _ _)
  | ifElse condition thenBody elseBody =>
    simp only [stmtSites, sitesPlainTypes_cons, sitesPlainTypes_append, List.length_append]
    exact congrArg₂ (· + ·) (length_plainTypes condition _ a b) (congrArg₂ (· + ·)
      (length_stmtSites thenBody _ _ _ _ _ _) (length_stmtSites elseBody _ _ _ _ _ _))
  | doWhile body condition =>
    simp only [stmtSites, sitesPlainTypes_cons, sitesPlainTypes_append, sitesPlainTypes_nil,
      List.append_nil, List.length_append]
    exact congrArg₂ (· + ·) (length_stmtSites body _ _ _ _ _ _) (length_plainTypes condition _ _ _)
  | forIn _ range body =>
    simp only [stmtSites, sitesPlainTypes_cons, List.length_append]
    exact congrArg₂ (· + ·) (length_plainTypes range _ a b) (length_stmtSites body _ _ _ _ _ _)
  | jump _ | ret => rfl

theorem length_stmtsSites {ds : List Misspelling} {ts ts' : List Source.Stmt}
    (spelt : Source.Stmt.AllMisspelt ds ts ts') (c c' : BindContext) (a b : Scope) (s s' : BindState) :
    (sitesPlainTypes file (stmtsSites c' b s' ts')).length =
      (sitesPlainTypes file (stmtsSites c a s ts)).length := by
  cases spelt with
  | nil => rfl
  | cons first rest =>
    simp only [stmtsSites, sitesPlainTypes_append, List.length_append]
    exact congrArg₂ (· + ·) (length_stmtSites first _ _ _ _ _ _) (length_stmtsSites rest _ _ _ _ _ _)

end

end Binding

/-- Rows that go together go together part by part. -/
theorem forall₂_of_append {α β : Type} {R : α → β → Prop} {as bs : List α} {as' bs' : List β}
    (both : List.Forall₂ R (as ++ bs) (as' ++ bs')) (length : as'.length = as.length) :
    List.Forall₂ R as as' ∧ List.Forall₂ R bs bs' := by
  have first := List.forall₂_take_append _ _ _ both
  have rest := List.forall₂_drop_append _ _ _ both
  rw [length, List.take_left] at first
  rw [length, List.drop_left] at rest
  exact ⟨first, rest⟩

end ScriptLang
