import ScriptLang.Binding.Unit

/-! A unit asks the scopes around it only what the names in it mean. Behind two histories in
which these names mean the same it is bound the same way, with the same diagnostics. -/

namespace ScriptLang

namespace Source

mutual

def Expr.names : Expr → List String
  | literal _ _ => []
  | name _ n => [n.text]
  | assign _ target _ value => target.text :: value.names
  | unary _ _ e | paren _ e => e.names
  | binary _ left _ right => left.names ++ right.names
  | range _ lower upper => lower.names ++ upper.names
  | call _ callee args => callee.text :: namesOf args

def Expr.namesOf : List Expr → List String
  | [] => []
  | e :: es => e.names ++ namesOf es

end

mutual

def Stmt.names : Stmt → List String
  | block _ body => namesOf body
  | declare _ _ _ _ e => e.names
  | ifThen _ c t => c.names ++ t.names
  | ifElse _ c t e => c.names ++ (t.names ++ e.names)
  | whileDo _ c body => c.names ++ body.names
  | doWhile _ body c => body.names ++ c.names
  | forIn _ _ range body => range.names ++ body.names
  | jump _ | ret _ _ none => []
  | ret _ _ (some e) | expr _ e => e.names

def Stmt.namesOf : List Stmt → List String
  | [] => []
  | s :: ss => s.names ++ namesOf ss

end

def Unit.names (u : Unit) : List String :=
  Stmt.namesOf u.statements ++ u.functions.flatMap fun f => Stmt.namesOf f.body

end Source

/-- The scopes declare the same, and the names mean the same in both. -/
structure Scope.Like (among : String → Prop) (a b : Scope) : Prop where
  inner : a.inner = b.inner
  lookup : ∀ name, among name → a.lookup? name = b.lookup? name

namespace Scope.Like

variable {among : String → Prop} {a b : Scope}

theorem push (like : a.Like among b) : a.push.Like among b.push :=
  ⟨rfl, fun name isAmong => by simpa using like.lookup name isAmong⟩

theorem replace (like : a.Like among b) (name : String) (symbol : Symbol) :
    (a.replace name symbol).Like among (b.replace name symbol) := by
  refine ⟨congrArg (·.insert name symbol) like.inner, fun other isAmong => ?_⟩
  rw [lookup?_replace, lookup?_replace, like.lookup other isAmong]

theorem declare (like : a.Like among b) (name : String) (symbol : Symbol) :
    (a.declare? name symbol = none ∧ b.declare? name symbol = none) ∨
      ∃ a' b', a.declare? name symbol = some a' ∧ b.declare? name symbol = some b' ∧
        a'.Like among b' := by
  unfold declare?
  rw [like.inner]
  cases b.inner.contains name with
  | true => exact .inl ⟨rfl, rfl⟩
  | false => exact .inr ⟨_, _, rfl, rfl, like.replace name symbol⟩

theorem lookupLocal (like : a.Like among b) (name : String) :
    a.lookupLocal? name = b.lookupLocal? name := congrArg (·.get? name) like.inner

theorem symbols (like : a.Like among b) : a.vars = b.vars ∧ a.fns = b.fns := by
  unfold vars fns Scope.symbols
  rw [like.inner]
  exact ⟨rfl, rfl⟩

end Scope.Like

/-- From the same state both computations lead to the same one, with related results. -/
def Bind.Matches {α β : Type} (R : α → β → Prop) (x : Bind α) (y : Bind β) : Prop :=
  ∀ s, R (x s).1 (y s).1 ∧ (x s).2 = (y s).2

namespace Bind.Matches

variable {α β γ δ : Type} {R : α → β → Prop} {Q : γ → δ → Prop}

theorem pure {a : α} {b : β} (related : R a b) :
    Matches R (Pure.pure a : Bind α) (Pure.pure b) := fun _ => ⟨related, rfl⟩

theorem refl (x : Bind α) : Matches Eq x x := fun _ => ⟨rfl, rfl⟩

theorem bind {x : Bind α} {y : Bind β} {f : α → Bind γ} {g : β → Bind δ} (first : Matches R x y)
    (second : ∀ a b, R a b → Matches Q (f a) (g b)) : Matches Q (x >>= f) (y >>= g) := by
  intro s
  obtain ⟨related, same⟩ := first s
  have rest := second _ _ related (y s).2
  show Q (f (x s).1 (x s).2).1 (g (y s).1 (y s).2).1 ∧
    (f (x s).1 (x s).2).2 = (g (y s).1 (y s).2).2
  rw [same]
  exact rest

/-- Both start with the same computation. -/
theorem after (x : Bind α) {f : α → Bind γ} {g : α → Bind δ}
    (second : ∀ a, Matches Q (f a) (g a)) : Matches Q (x >>= f) (x >>= g) :=
  (refl x).bind fun a _ same => same ▸ second a

/-- Both start with computations that are the same. -/
theorem afterSame {x y : Bind α} (same : x = y) {f : α → Bind γ} {g : α → Bind δ}
    (second : ∀ a, Matches Q (f a) (g a)) : Matches Q (x >>= f) (y >>= g) :=
  same ▸ after x second

/-- Behind fresh symbols it matters only what is done with them. -/
theorem behindFresh {x : Fresh α} {f : α → Bind γ} {g : α → Bind δ} (n : Nat) (d : Diagnostics)
    (second : Matches Q (f (x n).1) (g (x n).1)) :
    Q ((Bind.fresh x >>= f) ⟨n, d⟩).1 ((Bind.fresh x >>= g) ⟨n, d⟩).1 ∧
      ((Bind.fresh x >>= f) ⟨n, d⟩).2 = ((Bind.fresh x >>= g) ⟨n, d⟩).2 :=
  second ⟨(x n).2, d⟩

end Bind.Matches

def Scope.Beside {α : Type} (among : String → Prop) (r r' : α × Scope) : Prop :=
  r.1 = r'.1 ∧ r.2.Like among r'.2

namespace Binding

open Source (Token Name TypeClause)

variable {file : Option String} {a b : Scope}

theorem resolveVar_congr {name : Name} (same : a.lookup? name.text = b.lookup? name.text) :
    resolveVar file a name = resolveVar file b name := by
  unfold resolveVar
  rw [same]

theorem assign_congr {target : Name} (same : a.lookup? target.text = b.lookup? target.text)
    (op : Token) (range : TextRange) (value : Expr) :
    assign file a target op range value = assign file b target op range value := by
  unfold assign
  rw [resolveVar_congr same]

theorem call_congr {callee : Name} (same : a.lookup? callee.text = b.lookup? callee.text)
    (range : TextRange) (sources : List Source.Expr) (args : List Expr) :
    call file a range callee sources args = call file b range callee sources args := by
  unfold call
  rw [same]

mutual

/-- An expression is bound the same way where its names mean the same. -/
theorem expr_congr (e : Source.Expr) (same : ∀ name ∈ e.names, a.lookup? name = b.lookup? name) :
    expr file a e = expr file b e := by
  cases e with
  | literal _ v => rfl
  | name _ n =>
    unfold expr
    rw [resolveVar_congr (same n.text List.mem_cons_self)]
  | assign _ target op value =>
    obtain ⟨here, rest⟩ := List.forall_mem_cons.1 same
    unfold expr
    rw [expr_congr value rest]
    exact bind_congr fun bound => bind_congr fun bound => assign_congr here op _ bound
  | unary _ op e | paren _ e =>
    unfold expr
    rw [expr_congr e same]
  | binary _ left op right | range _ left right =>
    obtain ⟨sameLeft, sameRight⟩ := List.forall_mem_append.1 same
    unfold expr
    rw [expr_congr left sameLeft, expr_congr right sameRight]
  | call _ callee args =>
    obtain ⟨here, rest⟩ := List.forall_mem_cons.1 same
    unfold expr
    rw [exprs_congr args rest]
    exact bind_congr fun bound => call_congr here _ args bound

theorem exprs_congr (es : List Source.Expr)
    (same : ∀ name ∈ Source.Expr.namesOf es, a.lookup? name = b.lookup? name) :
    exprs file a es = exprs file b es := by
  cases es with
  | nil => rfl
  | cons e es =>
    obtain ⟨first, rest⟩ := List.forall_mem_append.1 same
    unfold exprs
    rw [expr_congr e first, exprs_congr es rest]

end

theorem value_congr {e : Source.Expr} (same : ∀ name ∈ e.names, a.lookup? name = b.lookup? name) :
    value file a e = value file b e := by
  unfold value
  rw [expr_congr e same]

theorem valueOf_congr {e : Source.Expr} (t : Ty)
    (same : ∀ name ∈ e.names, a.lookup? name = b.lookup? name) :
    valueOf file a t e = valueOf file b t e := by
  unfold valueOf
  rw [value_congr same]

theorem loopRange_congr {e : Source.Expr} (same : ∀ name ∈ e.names, a.lookup? name = b.lookup? name) :
    loopRange file a e = loopRange file b e := by
  cases e with
  | range _ lower upper =>
    obtain ⟨sameLower, sameUpper⟩ := List.forall_mem_append.1 same
    unfold loopRange
    dsimp only
    rw [value_congr sameLower, valueOf_congr .int sameUpper]
  | _ => rfl

variable {among : String → Prop} {c : BindContext}

theorem declareVar_matches (like : a.Like among b) (name : Name) (readOnly : Bool) (ty : Ty)
    (constant : Option Value) :
    Bind.Matches (Scope.Beside among) (declareVar c a name readOnly ty constant)
      (declareVar c b name readOnly ty constant) := by
  unfold declareVar
  refine .after _ fun v => ?_
  rcases like.declare name.text (.var v) with ⟨ofA, ofB⟩ | ⟨a', b', ofA, ofB, like'⟩
  · rw [ofA, ofB]
    refine .after _ fun _ => ?_
    exact .pure ⟨rfl, like⟩
  · rw [ofA, ofB]
    exact .pure ⟨rfl, like'⟩

theorem declaration_matches (like : a.Like among b) (keyword : Token) (name : Name)
    (type : Option TypeClause) {source : Source.Expr} (names : ∀ name ∈ source.names, among name) :
    Bind.Matches (Scope.Beside among) (declaration c a keyword name type source)
      (declaration c b keyword name type source) := by
  have same : ∀ name ∈ source.names, a.lookup? name = b.lookup? name :=
    fun name within => like.lookup name (names name within)
  unfold declaration
  cases type with
  | some clause =>
    refine .after _ fun declared => .afterSame (value_congr same) fun bound => .after _ fun bound => ?_
    refine (declareVar_matches like name _ _ _).bind fun r r' beside => ?_
    exact .pure ⟨by rw [beside.1], beside.2⟩
  | none =>
    refine .after _ fun declared => .afterSame (value_congr same) fun bound => .after _ fun bound => ?_
    refine (declareVar_matches like name _ _ _).bind fun r r' beside => ?_
    exact .pure ⟨by rw [beside.1], beside.2⟩

mutual

/-- A statement is bound the same way where its names mean the same, and so are those behind it. -/
theorem stmt_matches {a b : Scope} (like : a.Like among b) (c : BindContext) (isGlobal : Bool)
    (s : Source.Stmt)
    (names : ∀ name ∈ s.names, among name) :
    Bind.Matches (Scope.Beside among) (stmt c isGlobal a s) (stmt c isGlobal b s) := by
  have sameIn {a b : Scope} (like : a.Like among b) {e : Source.Expr}
      (names : ∀ name ∈ e.names, among name) : ∀ name ∈ e.names, a.lookup? name = b.lookup? name :=
    fun name within => like.lookup name (names name within)
  cases s with
  | block _ body =>
    unfold stmt
    refine (stmts_matches like.push c body names).bind fun r r' beside => ?_
    exact .pure ⟨congrArg Stmt.block beside.1, like⟩
  | declare _ keyword name type source => exact declaration_matches like keyword name type names
  | ifThen _ condition thenBody =>
    obtain ⟨namesC, namesT⟩ := List.forall_mem_append.1 names
    unfold stmt
    refine .afterSame (valueOf_congr .bool (sameIn like namesC)) fun condition => ?_
    refine (stmt_matches like c false thenBody namesT).bind fun r r' beside => ?_
    exact .pure ⟨congrArg (Stmt.ifThen condition) beside.1, beside.2⟩
  | ifElse _ condition thenBody elseBody =>
    obtain ⟨namesC, namesR⟩ := List.forall_mem_append.1 names
    obtain ⟨namesT, namesE⟩ := List.forall_mem_append.1 namesR
    unfold stmt
    refine .afterSame (valueOf_congr .bool (sameIn like namesC)) fun condition => ?_
    refine (stmt_matches like c false thenBody namesT).bind fun r r' beside => ?_
    refine (stmt_matches beside.2 c false elseBody namesE).bind fun t t' beside' => ?_
    exact .pure ⟨by rw [beside.1, beside'.1], beside'.2⟩
  | whileDo _ condition body =>
    obtain ⟨namesC, namesB⟩ := List.forall_mem_append.1 names
    unfold stmt
    refine .afterSame (valueOf_congr .bool (sameIn like namesC)) fun condition => ?_
    refine .after _ fun labels => ?_
    refine (stmt_matches like _ false body namesB).bind fun r r' beside => ?_
    exact .pure ⟨by rw [beside.1], beside.2⟩
  | doWhile _ body condition =>
    obtain ⟨namesB, namesC⟩ := List.forall_mem_append.1 names
    unfold stmt
    refine .after _ fun labels => ?_
    refine (stmt_matches like _ false body namesB).bind fun r r' beside => ?_
    refine .afterSame (valueOf_congr .bool (sameIn beside.2 namesC)) fun condition => ?_
    exact .pure ⟨by rw [beside.1], beside.2⟩
  | forIn _ name range body =>
    obtain ⟨namesR, namesB⟩ := List.forall_mem_append.1 names
    unfold stmt
    refine .afterSame (loopRange_congr (sameIn like namesR)) fun range => ?_
    refine (declareVar_matches like.push name true .int none).bind fun r r' beside => ?_
    refine .after _ fun labels => ?_
    refine (stmt_matches beside.2 _ false body namesB).bind fun t t' beside' => ?_
    exact .pure ⟨by rw [beside.1, beside'.1], like⟩
  | jump keyword =>
    unfold stmt
    refine .after _ fun bound => ?_
    exact .pure ⟨rfl, like⟩
  | ret _ keyword value =>
    cases value with
    | none =>
      unfold stmt
      refine .after _ fun bound => ?_
      exact .pure ⟨rfl, like⟩
    | some e =>
      unfold stmt
      refine .afterSame (value_congr (sameIn like names)) fun bound => ?_
      refine .after _ fun bound => ?_
      exact .pure ⟨rfl, like⟩
  | expr m e =>
    unfold stmt
    refine .afterSame (expr_congr e (sameIn like names)) fun bound => ?_
    have rest : Bind.Matches (Scope.Beside among) (pure (Stmt.expr bound, a) : Bind (Stmt × Scope))
        (pure (Stmt.expr bound, b)) := .pure ⟨rfl, like⟩
    dsimp only
    split
    · exact .after _ fun _ => rest
    · exact rest

theorem stmts_matches {a b : Scope} (like : a.Like among b) (c : BindContext) (ss : List Source.Stmt)
    (names : ∀ name ∈ Source.Stmt.namesOf ss, among name) :
    Bind.Matches (Scope.Beside among) (stmts c a ss) (stmts c b ss) := by
  cases ss with
  | nil => exact .pure ⟨rfl, like⟩
  | cons s ss =>
    obtain ⟨first, rest⟩ := List.forall_mem_append.1 names
    unfold stmts
    refine (stmt_matches like c false s first).bind fun r r' beside => ?_
    refine (stmts_matches beside.2 c ss rest).bind fun t t' beside' => ?_
    exact .pure ⟨by rw [beside.1, beside'.1], beside'.2⟩

end

theorem globals_matches (like : a.Like among b) (ss : List Source.Stmt)
    (names : ∀ name ∈ Source.Stmt.namesOf ss, among name) :
    Bind.Matches (Scope.Beside among) (globals c a ss) (globals c b ss) := by
  induction ss generalizing a b with
  | nil => exact .pure ⟨rfl, like⟩
  | cons s ss ih =>
    obtain ⟨first, rest⟩ := List.forall_mem_append.1 names
    unfold globals
    refine (stmt_matches like c true s first).bind fun r r' beside => ?_
    refine (ih beside.2 rest).bind fun t t' beside' => ?_
    exact .pure ⟨by rw [beside.1, beside'.1], beside'.2⟩

/-- The last steps of declaring a function. -/
theorem makeFn_matches (like : a.Like among b) (f : Source.Function) (ps : List Var) (returns : Ty) :
    Bind.Matches (Scope.Beside among) (do
        let fn ← Bind.fresh (Fn.create f.name.text ps returns (some f.mark.id))
        match a.declare? f.name.text (.fn fn) with
        | some scope => return (fn, scope)
        | none =>
          Bind.report file f.name.mark.range .symbolAlreadyDeclared [f.name.text]
          return (fn, a)) (do
        let fn ← Bind.fresh (Fn.create f.name.text ps returns (some f.mark.id))
        match b.declare? f.name.text (.fn fn) with
        | some scope => return (fn, scope)
        | none =>
          Bind.report file f.name.mark.range .symbolAlreadyDeclared [f.name.text]
          return (fn, b)) := by
  refine .after _ fun fn => ?_
  rcases like.declare f.name.text (.fn fn) with ⟨ofA, ofB⟩ | ⟨a', b', ofA, ofB, like'⟩
  · rw [ofA, ofB]
    exact .after _ fun _ => .pure ⟨rfl, like⟩
  · rw [ofA, ofB]
    exact .pure ⟨rfl, like'⟩

theorem declareFn_matches (like : a.Like among b) (f : Source.Function) :
    Bind.Matches (Scope.Beside among) (declareFn file a f) (declareFn file b f) := by
  unfold declareFn
  refine .after _ fun ps => ?_
  cases f.returns with
  | none => exact makeFn_matches like f ps .void
  | some clause => exact .after _ fun t? => makeFn_matches like f ps (t?.getD .error)

theorem declareFns_matches (like : a.Like among b) (fs : List Source.Function) :
    Bind.Matches (fun r r' => Scope.Beside among r r' ∧ r.1.map Prod.snd = fs)
      (declareFns file a fs) (declareFns file b fs) := by
  induction fs generalizing a b with
  | nil => exact .pure ⟨⟨rfl, like⟩, rfl⟩
  | cons f fs ih =>
    unfold declareFns
    refine (declareFn_matches like f).bind fun r r' beside => ?_
    refine (ih beside.2).bind fun t t' rest => ?_
    exact .pure ⟨⟨by rw [beside.1, rest.1.1], rest.1.2⟩, congrArg (List.cons f) rest.2⟩

theorem entryFn?_congr (like : a.Like among b) (declared : List (Fn × Source.Function))
    (hasGlobals : Bool) : entryFn? c a declared hasGlobals = entryFn? c b declared hasGlobals := by
  unfold entryFn?
  rw [like.lookupLocal]

theorem functionBody_congr (like : a.Like among b) (fn : Fn) (f : Source.Function)
    (names : ∀ name ∈ Source.Stmt.namesOf f.body, among name) :
    Bind.Matches Eq (functionBody c a fn f) (functionBody c b fn f) := by
  have inner (ps : List Var) {a b : Scope} (like : a.Like among b) :
      (ps.foldl (fun s p => (s.declare? p.name (.var p)).getD s) a).Like among
        (ps.foldl (fun s p => (s.declare? p.name (.var p)).getD s) b) := by
    induction ps generalizing a b with
    | nil => exact like
    | cons p ps ih =>
      refine ih ?_
      dsimp only
      rcases like.declare p.name (.var p) with ⟨ofA, ofB⟩ | ⟨a', b', ofA, ofB, like'⟩
      · rw [ofA, ofB]
        exact like
      · rw [ofA, ofB]
        exact like'
  unfold functionBody
  refine (stmts_matches (inner fn.parameters like.push).push _ f.body names).bind
    fun r r' beside => ?_
  exact .pure beside.1

theorem functionBodies_congr (like : a.Like among b) (declared : List (Fn × Source.Function))
    (names : ∀ p ∈ declared, ∀ name ∈ Source.Stmt.namesOf p.2.body, among name) :
    Bind.Matches Eq (functionBodies c a declared) (functionBodies c b declared) := by
  induction declared with
  | nil => exact .pure rfl
  | cons p declared ih =>
    obtain ⟨first, rest⟩ := List.forall_mem_cons.1 names
    unfold functionBodies
    refine (functionBody_congr like p.1 p.2 first).bind fun body body' same => ?_
    refine (ih rest).bind fun bodies bodies' same' => ?_
    exact .pure (by rw [same, same'])

/-- Behind the builtins a unit is bound the same way in scopes in which its names mean the same. -/
theorem unit_congr {scriptMode : Bool} {history history' : List Declarations} {u : Source.Unit}
    {n : Nat} (like : (historyScope (rootScope n).1 history).push.Like (· ∈ u.names)
      (historyScope (rootScope n).1 history').push) :
    unit scriptMode file history u ⟨n, .empty⟩ = unit scriptMode file history' u ⟨n, .empty⟩ := by
  have both : (unit scriptMode file history u ⟨n, .empty⟩).1 =
        (unit scriptMode file history' u ⟨n, .empty⟩).1 ∧
      (unit scriptMode file history u ⟨n, .empty⟩).2 =
        (unit scriptMode file history' u ⟨n, .empty⟩).2 := by
    unfold unit
    refine Bind.Matches.behindFresh (Q := Eq) n .empty ?_
    dsimp only
    refine (declareFns_matches like u.functions).bind fun r r' declared => ?_
    obtain ⟨⟨sameFns, like⟩, sources⟩ := declared
    rw [← sameFns]
    refine (globals_matches like u.statements fun name within =>
      List.mem_append_left _ within).bind fun t t' beside => ?_
    rw [← beside.1]
    refine .afterSame (entryFn?_congr beside.2 _ _) fun entry => ?_
    refine (functionBodies_congr beside.2 r.1 fun p within name isName => ?_).bind
      fun bodies bodies' same => ?_
    · have isSource : p.2 ∈ u.functions := sources ▸ List.mem_map_of_mem within
      exact List.mem_append_right _ (List.mem_flatMap_of_mem isSource isName)
    · refine .after _ fun state => .pure ?_
      rw [same, beside.2.symbols.1, beside.2.symbols.2]
  exact Prod.ext both.1 both.2

end Binding

/-- A unit is bound the same way behind two histories in which its names mean the same. -/
theorem bindUnit_congr {scriptMode : Bool} {file : Option String}
    {history history' : List Declarations} {u : Source.Unit} {n : Nat}
    (same : ∀ name ∈ u.names, (Binding.historyScope (Binding.rootScope n).1 history).lookup? name =
      (Binding.historyScope (Binding.rootScope n).1 history').lookup? name) :
    bindUnit scriptMode file history u n = bindUnit scriptMode file history' u n := by
  have like : (Binding.historyScope (Binding.rootScope n).1 history).push.Like (· ∈ u.names)
      (Binding.historyScope (Binding.rootScope n).1 history').push :=
    ⟨rfl, fun name isName => by simp [same name isName]⟩
  unfold bindUnit
  rw [Binding.unit_congr like]

end ScriptLang
