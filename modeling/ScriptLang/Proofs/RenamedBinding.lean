import ScriptLang.Proofs.BindingNames
import ScriptLang.Proofs.BindingPasses
import ScriptLang.Proofs.Renaming

/-! Where names mean the same symbols under other numbers, a statement is bound to the same code under
other numbers, and a mistake is reported in both places or in neither. How many numbers it takes can
be read off its source. -/

namespace ScriptLang

namespace Source.Stmt

mutual

/-- How many symbols are made for a statement. -/
def symbolCount : Stmt → Nat
  | block _ body => symbolCountOf body
  | declare _ _ _ _ _ => 1
  | ifThen _ _ t => t.symbolCount
  | ifElse _ _ t e => t.symbolCount + e.symbolCount
  | whileDo _ _ body | doWhile _ body _ => 2 + body.symbolCount
  | forIn _ _ _ body => 1 + (2 + body.symbolCount)
  | jump _ | ret _ _ _ | expr _ _ => 0

def symbolCountOf : List Stmt → Nat
  | [] => 0
  | s :: ss => s.symbolCount + symbolCountOf ss

end

/-- The names that a statement puts in the scope of what follows it. -/
def exports : Stmt → List String
  | declare _ _ name _ _ => [name.text]
  | ifThen _ _ t => t.exports
  | ifElse _ _ t e => t.exports ++ e.exports
  | whileDo _ _ body | doWhile _ body _ => body.exports
  | block _ _ | forIn _ _ _ _ | jump _ | ret _ _ _ | expr _ _ => []

end Source.Stmt

theorem Diagnostics.hasErrors_add (ds : Diagnostics) (d : Diagnostic) :
    (ds.add d).hasErrors = (ds.hasErrors || d.isError) := by
  simp [hasErrors]

/-- If there is no error among the diagnostics `e`, there had been none among `d` before, and `d'`
got none either. Where `same` holds, the same ones were added to both. -/
structure Diagnostics.Keep (same : Prop) (d d' e e' : Diagnostics) : Prop where
  silence : e.hasErrors = false → d.hasErrors = false ∧ (d'.hasErrors = false → e'.hasErrors = false)
  reports : same → d = d' → e = e'

namespace Diagnostics.Keep

variable {same : Prop} {d d' e e' : Diagnostics}

theorem refl : Keep same d d' d d' := ⟨fun silent => ⟨silent, id⟩, fun _ => id⟩

theorem trans {g g' : Diagnostics} (first : Keep same d d' e e') (second : Keep same e e' g g') :
    Keep same d d' g g' := by
  refine ⟨fun silent => ?_, fun isSame start => second.reports isSame (first.reports isSame start)⟩
  obtain ⟨between, after⟩ := second.silence silent
  obtain ⟨before, until_⟩ := first.silence between
  exact ⟨before, fun clean => after (until_ clean)⟩

/-- The same message is added to both, maybe at different places. -/
theorem add {file file' : Option String} {range range' : TextRange} {m : Message}
    {args args' : List String}
    (alike : same → file = file' ∧ range = range' ∧ args = args') :
    Keep same d d' (d.add (.ofMessage m args file (some range.toSpan)))
      (d'.add (.ofMessage m args' file' (some range'.toSpan))) := by
  refine ⟨fun clean => ?_, fun isSame start => ?_⟩
  · rw [Diagnostics.hasErrors_add, Bool.or_eq_false_iff] at clean
    refine ⟨clean.1, fun clean' => ?_⟩
    rw [Diagnostics.hasErrors_add, clean']
    exact clean.2
  · obtain ⟨rfl, rfl, rfl⟩ := alike isSame
    rw [start]

end Diagnostics.Keep

/-- From the numbers `n` and `n'` on, both computations take `k` numbers, and their results are
related. If no error has been reported behind `x`, none had been before it, and `y` reports none.
Where `same` holds, both report the same. -/
def Bind.Parallel {α β : Type} (same : Prop) (n n' k : Nat) (R : α → β → Prop) (x : Bind α)
    (y : Bind β) : Prop :=
  ∀ d d', (x ⟨n, d⟩).2.nextId = n + k ∧ (y ⟨n', d'⟩).2.nextId = n' + k ∧
    Diagnostics.Keep same d d' (x ⟨n, d⟩).2.diagnostics (y ⟨n', d'⟩).2.diagnostics ∧
    R (x ⟨n, d⟩).1 (y ⟨n', d'⟩).1

namespace Bind.Parallel

variable {α β γ δ : Type} {same : Prop} {R : α → β → Prop} {Q : γ → δ → Prop} {n n' j k : Nat}
  {x : Bind α} {y : Bind β} {f : α → Bind γ} {g : β → Bind δ}

theorem pure {a : α} {b : β} (related : R a b) :
    Parallel same n n' 0 R (Pure.pure a) (Pure.pure b) :=
  fun _ _ => ⟨rfl, rfl, .refl, related⟩

theorem bind (first : Parallel same n n' j R x y)
    (second : ∀ a b, R a b → Parallel same (n + j) (n' + j) k Q (f a) (g b)) :
    Parallel same n n' (j + k) Q (x >>= f) (y >>= g) := by
  intro d d'
  obtain ⟨count, count', keep, related⟩ := first d d'
  have rest := second _ _ related (x ⟨n, d⟩).2.diagnostics (y ⟨n', d'⟩).2.diagnostics
  rw [← count, ← count'] at rest
  obtain ⟨count₂, count₂', keep₂, related₂⟩ := rest
  refine ⟨?_, ?_, keep.trans keep₂, related₂⟩
  · rw [← Nat.add_assoc, ← count]
    exact count₂
  · rw [← Nat.add_assoc, ← count']
    exact count₂'

/-- The first part takes no numbers. -/
theorem behind (first : Parallel same n n' 0 R x y)
    (second : ∀ a b, R a b → Parallel same n n' k Q (f a) (g b)) :
    Parallel same n n' k Q (x >>= f) (y >>= g) := by
  have whole := first.bind second
  rwa [Nat.zero_add] at whole

/-- The second part takes no numbers. -/
theorem followed (first : Parallel same n n' k R x y)
    (second : ∀ a b, R a b → Parallel same (n + k) (n' + k) 0 Q (f a) (g b)) :
    Parallel same n n' k Q (x >>= f) (y >>= g) := first.bind second

/-- What both report does not matter. -/
theorem silently (parallel : Parallel same n n' k R x y) : Parallel False n n' k R x y := by
  intro d d'
  obtain ⟨count, count', keep, related⟩ := parallel d d'
  exact ⟨count, count', ⟨keep.silence, False.elim⟩, related⟩

theorem fresh {x : Fresh α} {y : Fresh β} (count : (x n).2 = n + k) (count' : (y n').2 = n' + k)
    (related : R (x n).1 (y n').1) : Parallel same n n' k R (Bind.fresh x) (Bind.fresh y) :=
  fun _ _ => ⟨count, count', .refl, related⟩

/-- Both report a message, maybe at different places. -/
theorem report {file file' : Option String} {range range' : TextRange} {m : Message}
    {args args' : List String} (alike : same → file = file' ∧ range = range' ∧ args = args') :
    Parallel same n n' 0 (fun _ _ => True) (Bind.report file range m args)
      (Bind.report file' range' m args') :=
  fun _ _ => ⟨rfl, rfl, .add alike, trivial⟩

/-- Both report a message at the same place of their files. -/
theorem reported {file file' : Option String} {range : TextRange} {m : Message}
    {args : List String} {f : PUnit → Bind γ} {g : PUnit → Bind δ}
    (second : Parallel (file = file') n n' k Q (f ⟨⟩) (g ⟨⟩)) :
    Parallel (file = file') n n' k Q (Bind.report file range m args >>= f)
      (Bind.report file' range m args >>= g) :=
  (report fun isSame => ⟨isSame, rfl, rfl⟩).behind fun _ _ _ => second

open Binding in
/-- What the first computation gives anyway is known as well. -/
theorem yielding {P : α → Prop} {x : Bind α} {y : Bind β} (parallel : Parallel same n n' k R x y)
    (yields : Yields x P) : Parallel same n n' k (fun a b => R a b ∧ P a) x y := by
  intro d d'
  obtain ⟨count, count', keep, related⟩ := parallel d d'
  exact ⟨count, count', keep, related, yields ⟨n, d⟩⟩

end Bind.Parallel

/-- The names `among` mean the same symbols in both scopes, under other numbers, and so do those of
`declares` in the innermost one. -/
structure Scope.Renamed (ρ : Renaming) (among declares : String → Prop) (a b : Scope) : Prop where
  lookup : ∀ name, among name → b.lookup? name = (a.lookup? name).map (Symbol.rename ρ)
  inner : ∀ name, declares name → b.lookupLocal? name = (a.lookupLocal? name).map (Symbol.rename ρ)

namespace Scope.Renamed

variable {ρ : Renaming} {among declares : String → Prop} {a b : Scope}

theorem push (renamed : a.Renamed ρ among declares b) (declares' : String → Prop) :
    a.push.Renamed ρ among declares' b.push :=
  ⟨fun name isAmong => by simpa using renamed.lookup name isAmong, fun _ _ => rfl⟩

theorem replace (renamed : a.Renamed ρ among declares b) (name : String) (symbol : Symbol) :
    (a.replace name symbol).Renamed ρ among declares (b.replace name (symbol.rename ρ)) := by
  refine ⟨fun other isAmong => ?_, fun other isDeclared => ?_⟩
  · rw [lookup?_replace, lookup?_replace, renamed.lookup other isAmong]
    split <;> rfl
  · rw [lookupLocal?_replace, lookupLocal?_replace, renamed.inner other isDeclared]
    split <;> rfl

theorem contains (renamed : a.Renamed ρ among declares b) {name : String} (isDeclared : declares name) :
    b.inner.contains name = a.inner.contains name := by
  have same : b.inner.get? name = (a.inner.get? name).map (Symbol.rename ρ) :=
    renamed.inner name isDeclared
  rw [OrderedMap.contains_eq_isSome, OrderedMap.contains_eq_isSome, same, Option.isSome_map]

/-- A name is taken in both scopes or in neither. -/
theorem declare (renamed : a.Renamed ρ among declares b) (name : String) (symbol : Symbol)
    (isDeclared : declares name) :
    (a.declare? name symbol = none ∧ b.declare? name (symbol.rename ρ) = none) ∨
      (a.inner.contains name = false ∧ b.inner.contains name = false ∧
        a.declare? name symbol = some (a.replace name symbol) ∧
        b.declare? name (symbol.rename ρ) = some (b.replace name (symbol.rename ρ))) := by
  unfold declare?
  rw [renamed.contains isDeclared]
  cases a.inner.contains name with
  | true => exact .inl ⟨rfl, rfl⟩
  | false => exact .inr ⟨rfl, rfl, rfl, rfl⟩

end Scope.Renamed

theorem Scope.vars_replace {scope : Scope} {name : String} (v : Var)
    (new : scope.inner.contains name = false) :
    (scope.replace name (.var v)).vars = scope.vars ++ [v] := by
  simp [vars, symbols, replace, OrderedMap.values_insert_of_new new, Symbol.var?]

/-- Which names are new in a scope where one more is declared. -/
theorem Scope.new_replace_iff {scope : Scope} {name other : String} {symbol : Symbol} :
    (scope.replace name symbol).inner.contains other = false ↔
      other ≠ name ∧ scope.inner.contains other = false := by
  have known := scope.lookupLocal?_replace name other symbol
  unfold Scope.lookupLocal? at known
  rw [OrderedMap.contains_eq_isSome, OrderedMap.contains_eq_isSome, known]
  by_cases same : other = name <;> simp [same]

/-- Results of binding in scopes `a` and `b`: the second item is the first one under other numbers,
the scopes behind them are alike again, and the same variables have come to both. -/
structure Scope.RenamedBehind (ρ : Renaming) (among declares : String → Prop) (a b : Scope) {α : Type}
    (rename : α → α) (r r' : α × Scope) : Prop where
  item : rename r.1 = r'.1
  scope : r.2.Renamed ρ among declares r'.2
  vars : ∃ new, r.2.vars = a.vars ++ new ∧ r'.2.vars = b.vars ++ new.map (Var.rename ρ)

namespace Scope.RenamedBehind

variable {ρ : Renaming} {among declares : String → Prop} {a b : Scope} {α β : Type}
  {rename : α → α} {rename' : β → β}

/-- Scopes that stay as they are. -/
theorem same {item item' : α} (renamed : a.Renamed ρ among declares b) (related : rename item = item') :
    RenamedBehind ρ among declares a b rename (item, a) (item', b) :=
  ⟨related, renamed, [], by simp⟩

/-- Two results in a row, from which a third item is made. -/
theorem trans {γ : Type} {rename'' : γ → γ} {r r' : α × Scope} {t t' : β × Scope} {item item' : γ}
    (first : RenamedBehind ρ among declares a b rename r r')
    (second : RenamedBehind ρ among declares r.2 r'.2 rename' t t') (related : rename'' item = item') :
    RenamedBehind ρ among declares a b rename'' (item, t.2) (item', t'.2) := by
  obtain ⟨new, vars, vars'⟩ := first.vars
  obtain ⟨more, moreVars, moreVars'⟩ := second.vars
  refine ⟨related, second.scope, new ++ more, ?_, ?_⟩
  · rw [moreVars, vars, List.append_assoc]
  · rw [moreVars', vars', List.map_append, List.append_assoc]

/-- Another item is made from the first one. -/
theorem map {r r' : α × Scope} {item item' : β}
    (behind : RenamedBehind ρ among declares a b rename r r') (related : rename' item = item') :
    RenamedBehind ρ among declares a b rename' (item, r.2) (item', r'.2) :=
  ⟨related, behind.scope, behind.vars⟩

end Scope.RenamedBehind

structure BindContext.Renamed (κ : Relabelling) (c c' : BindContext) : Prop where
  scriptMode : c'.scriptMode = c.scriptMode
  function : c'.function = c.function.map (Fn.rename κ)
  loops : c'.loops = c.loops.map (LoopLabels.rename κ)

namespace Binding

open Source (Token Name TypeClause)

variable {κ : Relabelling} {ρ : Renaming} {file file' : Option String}
  {among declares : String → Prop} {a b : Scope} {n n' : Nat}

theorem requireValue_renames {range : TextRange} (e : Expr) :
    Bind.Parallel (file = file') n n' 0 (Expr.rename κ · = ·) (requireValue file range e)
      (requireValue file' range (e.rename κ)) := by
  unfold requireValue
  rw [Expr.ty_rename]
  split
  · exact .reported (.pure rfl)
  · exact .pure rfl

theorem convert_renames {range : TextRange} (e : Expr) (t : Ty) (explicit : Bool) :
    Bind.Parallel (file = file') n n' 0 (Expr.rename κ · = ·) (convert file range e t explicit)
      (convert file' range (e.rename κ) t explicit) := by
  unfold convert
  rw [Expr.isError_rename, Expr.ty_rename]
  split
  · exact .pure rfl
  · cases Conversion.classify e.ty t with
    | none => exact .reported (.pure rfl)
    | identity => exact .pure rfl
    | implicit => exact .pure rfl
    | explicit =>
      cases explicit with
      | true => exact .pure rfl
      | false => exact .reported (.pure rfl)

theorem resolveVar_renames (renamed : a.Renamed ρ among declares b) {name : Name}
    (isAmong : among name.text) :
    Bind.Parallel (file = file') n n' 0 (Option.map (Var.rename ρ) · = ·)
      (resolveVar file a name) (resolveVar file' b name) := by
  unfold resolveVar
  rw [renamed.lookup name.text isAmong]
  cases a.lookup? name.text with
  | none => exact .reported (.pure rfl)
  | some symbol =>
    cases symbol with
    | var v => exact .pure rfl
    | fn f => exact .reported (.pure rfl)

theorem unary_renames {op : Token} (e : Expr) :
    Bind.Parallel (file = file') n n' 0 (Expr.rename κ · = ·) (unary file op e)
      (unary file' op (e.rename κ)) := by
  unfold unary
  rw [Expr.isError_rename, Expr.ty_rename]
  split
  · exact .pure rfl
  · cases UnaryOp.resolve? op.kind e.ty with
    | none => exact .reported (.pure rfl)
    | some o => exact .pure rfl

theorem binary_renames {op : Token} {kind : Source.Kind} (l r : Expr) :
    Bind.Parallel (file = file') n n' 0 (Expr.rename κ · = ·) (binary file op kind l r)
      (binary file' op kind (l.rename κ) (r.rename κ)) := by
  unfold binary
  rw [Expr.isError_rename, Expr.isError_rename, Expr.ty_rename, Expr.ty_rename]
  split
  · exact .pure rfl
  · cases BinaryOp.resolve? kind l.ty r.ty with
    | none => exact .reported (.pure rfl)
    | some o => exact .pure rfl

theorem assignTo_renames {op : Token} {range : TextRange} (value : Expr) (v : Var) :
    Bind.Parallel (file = file') n n' 0 (Expr.rename κ · = ·) (assignTo file op range value v)
      (assignTo file' op range (value.rename κ) (v.rename κ)) := by
  unfold assignTo
  cases op.kind.compound? with
  | none =>
    refine (convert_renames value v.ty false).behind ?_
    rintro e _ rfl
    exact .pure rfl
  | some kind =>
    refine (binary_renames (.var v) value).behind ?_
    rintro combined _ rfl
    rw [Expr.isError_rename]
    split
    · exact .pure rfl
    · refine (convert_renames combined v.ty false).behind ?_
      rintro e _ rfl
      exact .pure rfl

theorem assign_renames (renamed : a.Renamed ρ among declares b) {target : Name}
    (isAmong : among target.text) {op : Token} {range : TextRange} (value : Expr) :
    Bind.Parallel (file = file') n n' 0 (Expr.rename ρ · = ·)
      (assign file a target op range value) (assign file' b target op range (value.rename ρ)) := by
  rw [assign_eq, assign_eq]
  refine (resolveVar_renames renamed isAmong).behind ?_
  rintro v? _ rfl
  cases v? with
  | none => exact .pure rfl
  | some v =>
    dsimp only [Option.map_some]
    rw [Var.readOnly_rename]
    split
    · exact .reported (assignTo_renames value v)
    · exact assignTo_renames value v

theorem convertArgs_renames (sources : List Source.Expr) (args : List Expr) {ps ps' : List Var}
    (types : ps'.map Var.ty = ps.map Var.ty) :
    Bind.Parallel (file = file') n n' 0 (List.map (Expr.rename κ) · = ·)
      (convertArgs file sources args ps) (convertArgs file' sources (args.map (Expr.rename κ)) ps') := by
  induction sources generalizing args ps ps' with
  | nil => exact .pure rfl
  | cons source sources ih =>
    cases args with
    | nil => exact .pure rfl
    | cons arg args =>
      cases ps with
      | nil =>
        obtain rfl : ps' = [] := List.map_eq_nil_iff.1 types
        exact .pure rfl
      | cons p ps =>
        obtain ⟨p', ps', rfl, same, rest⟩ := List.map_eq_cons_iff.1 types
        simp only [convertArgs, List.map_cons, same]
        refine (convert_renames arg p.ty false).behind ?_
        rintro e _ rfl
        refine (ih args rest).behind ?_
        rintro es _ rfl
        exact .pure rfl

theorem callFn_renames (renamed : a.Renamed ρ among declares b) {callee : Name}
    (isAmong : among callee.text) {range : TextRange} (sources : List Source.Expr)
    (args : List Expr) :
    Bind.Parallel (file = file') n n' 0 (Expr.rename ρ · = ·)
      (callFn file a range callee sources args)
      (callFn file' b range callee sources (args.map (Expr.rename ρ))) := by
  unfold callFn
  rw [renamed.lookup callee.text isAmong]
  cases a.lookup? callee.text with
  | none => exact .reported (.pure rfl)
  | some symbol =>
    cases symbol with
    | var v => exact .reported (.pure rfl)
    | fn f =>
      have types : (f.rename ρ).parameters.map Var.ty = f.parameters.map Var.ty := Fn.types_rename
      have count : (f.rename ρ).parameters.length = f.parameters.length := by
        rw [← List.length_map Var.ty, types, List.length_map]
      dsimp only [Option.map_some, Symbol.rename]
      rw [count, List.length_map]
      split
      · exact .reported (.pure rfl)
      · refine (convertArgs_renames sources args types).behind ?_
        rintro es _ rfl
        exact .pure (by rw [Expr.rename, Expr.renameAll_eq_map])

theorem call_renames (renamed : a.Renamed ρ among declares b) {callee : Name}
    (isAmong : among callee.text) {range : TextRange} (sources : List Source.Expr)
    (args : List Expr) :
    Bind.Parallel (file = file') n n' 0 (Expr.rename ρ · = ·)
      (call file a range callee sources args)
      (call file' b range callee sources (args.map (Expr.rename ρ))) := by
  by_cases conversion : IsConversion callee sources args
  · obtain ⟨⟨t, named⟩, oneSource, oneArg⟩ := conversion
    obtain ⟨source, rfl⟩ := List.length_eq_one_iff.1 oneSource
    obtain ⟨arg, rfl⟩ := List.length_eq_one_iff.1 oneArg
    rw [List.map_singleton, call_of_conversion named, call_of_conversion named]
    exact convert_renames arg t true
  · have conversion' : ¬IsConversion callee sources (args.map (Expr.rename ρ)) :=
      fun is => conversion ⟨is.named, is.source, by simpa using is.arg⟩
    rw [call_eq_callFn conversion, call_eq_callFn conversion']
    exact callFn_renames renamed isAmong sources args

mutual

/-- Where the names of an expression mean the same, it is bound to the same expression. -/
theorem expr_renames {n n' : Nat} (renamed : a.Renamed ρ among declares b) (e : Source.Expr)
    (names : ∀ name ∈ e.names, among name) :
    Bind.Parallel (file = file') n n' 0 (Expr.rename ρ · = ·) (expr file a e) (expr file' b e) := by
  cases e with
  | literal m v => exact .pure rfl
  | name m name =>
    refine (resolveVar_renames renamed (names name.text List.mem_cons_self)).behind ?_
    rintro v? _ rfl
    cases v? <;> exact .pure rfl
  | assign m target op e =>
    obtain ⟨here, names⟩ := List.forall_mem_cons.1 names
    refine (expr_renames renamed e names).behind ?_
    rintro bound _ rfl
    refine (requireValue_renames bound).behind ?_
    rintro bound _ rfl
    exact assign_renames renamed here bound
  | unary m op e =>
    refine (expr_renames renamed e names).behind ?_
    rintro bound _ rfl
    refine (requireValue_renames bound).behind ?_
    rintro bound _ rfl
    exact unary_renames bound
  | binary m left op right =>
    obtain ⟨namesL, namesR⟩ := List.forall_mem_append.1 names
    refine (expr_renames renamed left namesL).behind ?_
    rintro l _ rfl
    refine (requireValue_renames l).behind ?_
    rintro l _ rfl
    refine (expr_renames renamed right namesR).behind ?_
    rintro r _ rfl
    refine (requireValue_renames r).behind ?_
    rintro r _ rfl
    exact binary_renames l r
  | range m lower upper =>
    obtain ⟨namesL, namesU⟩ := List.forall_mem_append.1 names
    refine (expr_renames renamed lower namesL).behind ?_
    rintro l _ rfl
    refine (requireValue_renames l).behind fun _ _ _ => ?_
    refine (expr_renames renamed upper namesU).behind ?_
    rintro u _ rfl
    refine (requireValue_renames u).behind fun _ _ _ => ?_
    exact .reported (.pure rfl)
  | paren m e => exact expr_renames renamed e names
  | call m callee args =>
    obtain ⟨here, names⟩ := List.forall_mem_cons.1 names
    refine (exprs_renames renamed args names).behind ?_
    rintro es _ rfl
    exact call_renames renamed here args es

theorem exprs_renames {n n' : Nat} (renamed : a.Renamed ρ among declares b) (es : List Source.Expr)
    (names : ∀ name ∈ Source.Expr.namesOf es, among name) :
    Bind.Parallel (file = file') n n' 0 (List.map (Expr.rename ρ) · = ·) (exprs file a es)
      (exprs file' b es) := by
  cases es with
  | nil => exact .pure rfl
  | cons e es =>
    obtain ⟨first, rest⟩ := List.forall_mem_append.1 names
    refine (expr_renames renamed e first).behind ?_
    rintro bound _ rfl
    refine (requireValue_renames bound).behind ?_
    rintro bound _ rfl
    refine (exprs_renames renamed es rest).behind ?_
    rintro bounds _ rfl
    exact .pure rfl

end

theorem value_renames (renamed : a.Renamed ρ among declares b) {e : Source.Expr}
    (names : ∀ name ∈ e.names, among name) :
    Bind.Parallel (file = file') n n' 0 (Expr.rename ρ · = ·) (value file a e) (value file' b e) := by
  refine (expr_renames renamed e names).behind ?_
  rintro bound _ rfl
  exact requireValue_renames bound

theorem valueOf_renames (renamed : a.Renamed ρ among declares b) (t : Ty) {e : Source.Expr}
    (names : ∀ name ∈ e.names, among name) :
    Bind.Parallel (file = file') n n' 0 (Expr.rename ρ · = ·) (valueOf file a t e)
      (valueOf file' b t e) := by
  refine (value_renames renamed names).behind ?_
  rintro bound _ rfl
  exact convert_renames bound t false

theorem loopRange_renames (renamed : a.Renamed ρ among declares b) {e : Source.Expr}
    (names : ∀ name ∈ e.names, among name) :
    Bind.Parallel (file = file') n n' 0 (Expr.rename ρ · = ·) (loopRange file a e)
      (loopRange file' b e) := by
  cases e with
  | range m lower upper =>
    obtain ⟨namesL, namesU⟩ := List.forall_mem_append.1 names
    have rest (l : Expr) : Bind.Parallel (file = file') n n' 0 (Expr.rename ρ · = ·)
        (do return Expr.range l (← valueOf file a .int upper))
        (do return Expr.range (l.rename ρ) (← valueOf file' b .int upper)) := by
      refine (valueOf_renames renamed .int namesU).behind ?_
      rintro u _ rfl
      exact .pure rfl
    refine (value_renames renamed namesL).behind ?_
    rintro l _ rfl
    rw [Expr.isError_rename, Expr.ty_rename]
    split
    · exact .reported (rest .error)
    · exact rest l
  | _ => exact .reported (.pure rfl)

theorem type?_renames (clause : TypeClause) :
    Bind.Parallel (file = file') n n' 0 (fun t? t?' => t? = t?') (type? file clause)
      (type? file' clause) := by
  unfold type?
  cases Ty.ofName? clause.name.text with
  | none => exact .reported (.pure rfl)
  | some t => exact .pure rfl

theorem clauseType_renames (type : Option TypeClause) :
    Bind.Parallel (file = file') n n' 0 (fun t? t?' => t? = t?') (clauseType file type)
      (clauseType file' type) := by
  cases type with
  | none => exact .pure rfl
  | some clause => exact type?_renames clause

variable {c c' : BindContext}

theorem declareVar_renames (context : c.Renamed ρ c') (renamed : a.Renamed ρ among declares b)
    (shifts : ρ.Shifts n n' 1) {name : Name} (isDeclared : declares name.text) {readOnly : Bool}
    {t : Ty} {constant : Option Value} :
    Bind.Parallel (c.file = c'.file) n n' 1
      (Scope.RenamedBehind ρ among declares a b (Var.rename ρ))
      (declareVar c a name readOnly t constant) (declareVar c' b name readOnly t constant) := by
  unfold declareVar
  have isNone : c'.function.isNone = c.function.isNone := by rw [context.function, Option.isNone_map]
  rw [isNone]
  refine Bind.Parallel.followed (R := (Var.rename ρ · = ·)) (.fresh rfl rfl ?_) ?_
  · exact congrArg (fun id => ({ id, name := name.text, ty := t, kind := _, access := _ } : Var))
      shifts.first
  · rintro v _ rfl
    rcases renamed.declare name.text (.var v) isDeclared with
      ⟨taken, taken'⟩ | ⟨new, new', declared, declared'⟩
    · rw [taken]
      rw [Symbol.rename] at taken'
      rw [taken']
      exact .reported (.pure (.same renamed rfl))
    · rw [declared]
      rw [Symbol.rename] at declared'
      rw [declared']
      refine .pure ⟨rfl, renamed.replace name.text (.var v), [v], Scope.vars_replace v new, ?_⟩
      exact Scope.vars_replace _ new'

theorem declaration_renames (context : c.Renamed ρ c') (renamed : a.Renamed ρ among declares b)
    (shifts : ρ.Shifts n n' 1) {keyword : Token} {name : Name} (isDeclared : declares name.text)
    {type : Option TypeClause} {e : Source.Expr} (names : ∀ name ∈ e.names, among name) :
    Bind.Parallel (c.file = c'.file) n n' 1
      (Scope.RenamedBehind ρ among declares a b (Stmt.rename ρ))
      (declaration c a keyword name type e) (declaration c' b keyword name type e) := by
  rw [declaration_eq, declaration_eq]
  refine (clauseType_renames type).behind ?_
  rintro t? _ rfl
  refine (value_renames renamed names).behind ?_
  rintro bound _ rfl
  rw [Expr.ty_rename]
  refine (convert_renames bound _ false).behind ?_
  rintro converted _ rfl
  rw [Expr.constant?_rename]
  refine (declareVar_renames context renamed shifts isDeclared).followed ?_
  rintro r r' behind
  exact .pure (behind.map (by rw [Stmt.rename, behind.item]))

theorem jump_renames (context : c.Renamed κ c') {keyword : Token} :
    Bind.Parallel (c.file = c'.file) n n' 0 (Stmt.rename κ · = ·) (jump c keyword) (jump c' keyword) := by
  unfold jump
  rw [context.loops]
  cases c.loops with
  | nil => exact .reported (.pure rfl)
  | cons labels loops =>
    by_cases isBreak : keyword.kind = .breakKeyword
    · simp only [isBreak, if_true, List.map_cons]
      exact .pure rfl
    · simp only [isBreak, if_false, List.map_cons]
      exact .pure rfl

theorem returnStmt_renames (context : c.Renamed κ c') {keyword : TextRange}
    (bound : Option (TextRange × Expr)) :
    Bind.Parallel (c.file = c'.file) n n' 0 (Stmt.rename κ · = ·) (returnStmt c keyword bound)
      (returnStmt c' keyword (bound.map fun p => (p.1, p.2.rename κ))) := by
  unfold returnStmt
  rw [context.function]
  cases c.function with
  | none => exact .reported (.pure (by cases bound <;> rfl))
  | some f =>
    cases bound with
    | none =>
      dsimp only [Option.map_some, Option.map_none]
      rw [Fn.returns_rename]
      split
      · exact .reported (.pure rfl)
      · exact .pure rfl
    | some p =>
      dsimp only [Option.map_some]
      rw [Fn.returns_rename]
      split
      · exact .reported (.pure rfl)
      · refine (convert_renames p.2 f.returns false).behind ?_
        rintro e _ rfl
        exact .pure rfl

theorem newLoop_renames {same : Prop} (shifts : ρ.Shifts n n' 2) :
    Bind.Parallel same n n' 2 (LoopLabels.rename ρ · = ·) (Bind.fresh newLoop)
      (Bind.fresh newLoop) := by
  refine .fresh rfl rfl ?_
  have onBreak : ρ.plain.own n = n' := shifts 0 (by omega)
  have onContinue : ρ.plain.own (n + 1) = n' + 1 := shifts 1 (by omega)
  show LoopLabels.rename ρ ⟨⟨n, "break"⟩, ⟨n + 1, "continue"⟩⟩ = ⟨⟨n', "break"⟩, ⟨n' + 1, "continue"⟩⟩
  rw [LoopLabels.rename, Label.rename, Label.rename, onBreak, onContinue]

theorem standsAlone_rename (e : Expr) : standsAlone (e.rename κ) = standsAlone e := by
  cases e <;> rfl

theorem enter_renamed (context : c.Renamed κ c') (labels : LoopLabels) :
    (BindContext.enter c labels).Renamed κ (BindContext.enter c' (labels.rename κ)) :=
  { context with loops := by simp [BindContext.enter, context.loops] }

mutual

/-- Where the names of a statement mean the same, it is bound to the same statement. -/
theorem stmt_renames {c c' : BindContext} {declares : String → Prop} {a b : Scope} {n n' : Nat}
    (context : c.Renamed ρ c') (renamed : a.Renamed ρ among declares b) (isGlobal : Bool)
    (s : Source.Stmt) (names : ∀ name ∈ s.names, among name)
    (exports : ∀ name ∈ s.exports, declares name) (shifts : ρ.Shifts n n' s.symbolCount) :
    Bind.Parallel (c.file = c'.file) n n' s.symbolCount
      (Scope.RenamedBehind ρ among declares a b (Stmt.rename ρ))
      (stmt c isGlobal a s) (stmt c' isGlobal b s) := by
  cases s with
  | block m body =>
    refine (stmts_renames context (renamed.push fun _ => True) body names
      (fun _ _ _ _ => trivial) shifts).followed fun r r' behind => ?_
    exact .pure (.same renamed (by rw [Stmt.rename, Stmt.renameAll_eq_map, behind.item]))
  | declare m keyword name type e =>
    exact declaration_renames context renamed shifts (exports _ List.mem_cons_self) names
  | ifThen m condition t =>
    obtain ⟨namesC, namesT⟩ := List.forall_mem_append.1 names
    refine (valueOf_renames renamed .bool namesC).behind ?_
    rintro condition _ rfl
    refine (stmt_renames context renamed false t namesT exports shifts).followed fun r r' behind => ?_
    exact .pure (behind.map (by rw [Stmt.rename, behind.item]))
  | ifElse m condition t e =>
    obtain ⟨namesC, namesR⟩ := List.forall_mem_append.1 names
    obtain ⟨namesT, namesE⟩ := List.forall_mem_append.1 namesR
    obtain ⟨exportsT, exportsE⟩ := List.forall_mem_append.1 exports
    refine (valueOf_renames renamed .bool namesC).behind ?_
    rintro condition _ rfl
    refine (stmt_renames context renamed false t namesT exportsT shifts.front).bind
      fun r r' behind => ?_
    refine (stmt_renames context behind.scope false e namesE exportsE shifts.back).followed
      fun u u' behind' => ?_
    exact .pure (behind.trans behind' (by rw [Stmt.rename, behind.item, behind'.item]))
  | whileDo m condition body =>
    obtain ⟨namesC, namesB⟩ := List.forall_mem_append.1 names
    refine (valueOf_renames renamed .bool namesC).behind ?_
    rintro condition _ rfl
    refine (newLoop_renames shifts.front).bind ?_
    rintro labels _ rfl
    refine (stmt_renames (enter_renamed context labels) renamed false body namesB exports shifts.back).followed
      fun r r' behind => ?_
    exact .pure (behind.map (by rw [Stmt.rename, behind.item]))
  | doWhile m body condition =>
    obtain ⟨namesB, namesC⟩ := List.forall_mem_append.1 names
    refine (newLoop_renames shifts.front).bind ?_
    rintro labels _ rfl
    refine (stmt_renames (enter_renamed context labels) renamed false body namesB exports shifts.back).followed
      fun r r' behind => ?_
    refine (valueOf_renames behind.scope .bool namesC).behind ?_
    rintro condition _ rfl
    exact .pure (behind.map (by rw [Stmt.rename, behind.item]))
  | forIn m name range body =>
    obtain ⟨namesR, namesB⟩ := List.forall_mem_append.1 names
    refine (loopRange_renames renamed namesR).behind ?_
    rintro range _ rfl
    refine (declareVar_renames context (renamed.push fun _ => True) shifts.front
      trivial).bind fun v v' declared => ?_
    refine (newLoop_renames shifts.back.front).bind ?_
    rintro labels _ rfl
    refine (stmt_renames (enter_renamed context labels) declared.scope false body namesB (fun _ _ => trivial)
      shifts.back.back).followed fun r r' behind => ?_
    exact .pure (.same renamed (by rw [Stmt.rename, declared.item, behind.item]))
  | jump keyword =>
    refine (jump_renames context).behind ?_
    rintro bound _ rfl
    exact .pure (.same renamed rfl)
  | ret m keyword value =>
    cases value with
    | none =>
      refine (returnStmt_renames context none).behind ?_
      rintro bound _ rfl
      exact .pure (.same renamed rfl)
    | some e =>
      refine (value_renames renamed names).behind ?_
      rintro value _ rfl
      refine (returnStmt_renames context (some (e.textRange, value))).behind ?_
      rintro bound _ rfl
      exact .pure (.same renamed rfl)
  | expr m e =>
    refine (expr_renames renamed e names).behind ?_
    rintro bound _ rfl
    rw [context.scriptMode, standsAlone_rename]
    split
    · exact .reported (.pure (.same renamed rfl))
    · exact .pure (.same renamed rfl)

theorem stmts_renames {c c' : BindContext} {declares : String → Prop} {a b : Scope} {n n' : Nat}
    (context : c.Renamed ρ c') (renamed : a.Renamed ρ among declares b) (ss : List Source.Stmt)
    (names : ∀ name ∈ Source.Stmt.namesOf ss, among name)
    (exports : ∀ s ∈ ss, ∀ name ∈ s.exports, declares name)
    (shifts : ρ.Shifts n n' (Source.Stmt.symbolCountOf ss)) :
    Bind.Parallel (c.file = c'.file) n n' (Source.Stmt.symbolCountOf ss)
      (Scope.RenamedBehind ρ among declares a b (List.map (Stmt.rename ρ)))
      (stmts c a ss) (stmts c' b ss) := by
  cases ss with
  | nil => exact .pure (.same renamed rfl)
  | cons s ss =>
    obtain ⟨first, rest⟩ := List.forall_mem_append.1 names
    obtain ⟨exportsS, exportsR⟩ := List.forall_mem_cons.1 exports
    refine (stmt_renames context renamed false s first exportsS shifts.front).bind
      fun r r' behind => ?_
    refine (stmts_renames context behind.scope ss rest exportsR shifts.back).followed
      fun u u' behind' => ?_
    exact .pure (behind.trans behind' (by rw [List.map_cons, behind.item, behind'.item]))

end

theorem globals_renames (context : c.Renamed ρ c') (renamed : a.Renamed ρ among declares b)
    (ss : List Source.Stmt) (names : ∀ name ∈ Source.Stmt.namesOf ss, among name)
    (exports : ∀ s ∈ ss, ∀ name ∈ s.exports, declares name)
    (shifts : ρ.Shifts n n' (Source.Stmt.symbolCountOf ss)) :
    Bind.Parallel (c.file = c'.file) n n' (Source.Stmt.symbolCountOf ss)
      (Scope.RenamedBehind ρ among declares a b (List.map (Stmt.rename ρ)))
      (globals c a ss) (globals c' b ss) := by
  induction ss generalizing a b n n' with
  | nil => exact .pure (.same renamed rfl)
  | cons s ss ih =>
    obtain ⟨first, rest⟩ := List.forall_mem_append.1 names
    obtain ⟨exportsS, exportsR⟩ := List.forall_mem_cons.1 exports
    refine (stmt_renames context renamed true s first exportsS shifts.front).bind
      fun r r' behind => ?_
    refine (ih behind.scope rest exportsR shifts.back).followed fun u u' behind' => ?_
    exact .pure (behind.trans behind' (by rw [List.map_cons, behind.item, behind'.item]))

end Binding

end ScriptLang
