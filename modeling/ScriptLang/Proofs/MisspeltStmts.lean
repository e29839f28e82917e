import ScriptLang.Proofs.MisspeltExpr

/-! A statement is bound again with misspelt names in it. Each of them is reported, and nothing else is.
The scopes behind the two go on to mean the same, up to lost types. The types that are compared are
listed from the states in which binding comes to the statements. -/

namespace ScriptLang

namespace Scope.Spoilt

variable {unknown : String → Prop} {a b : Scope}

theorem push (spoilt : a.Spoilt unknown b) : a.push.Spoilt unknown b.push where
  lookup name := by simpa using spoilt.lookup name
  lookupLocal _ := .none
  unknown name isUnknown := by simpa using spoilt.unknown name isUnknown

theorem replace (spoilt : a.Spoilt unknown b) {name : String} {symbol symbol' : Symbol}
    (isKnown : ¬unknown name) (symbols : symbol.Spoilt symbol') :
    (a.replace name symbol).Spoilt unknown (b.replace name symbol') where
  lookup other := by
    rw [lookup?_replace, lookup?_replace]
    split
    next same => exact .some symbols
    next => exact spoilt.lookup other
  lookupLocal other := by
    rw [lookupLocal?_replace, lookupLocal?_replace]
    split
    next same => exact .some symbols
    next => exact spoilt.lookupLocal other
  unknown other isUnknown := by
    have differs : other ≠ name := fun same => isKnown (same ▸ isUnknown)
    rw [lookup?_replace, if_neg differs]
    exact spoilt.unknown other isUnknown

theorem contains (spoilt : a.Spoilt unknown b) (name : String) :
    b.inner.contains name = a.inner.contains name := by
  have related := spoilt.lookupLocal name
  rw [OrderedMap.contains_eq_isSome, OrderedMap.contains_eq_isSome]
  unfold lookupLocal? at related
  generalize a.inner.get? name = inA at related ⊢
  generalize b.inner.get? name = inB at related ⊢
  cases related <;> rfl

/-- A name that is free in one scope is free in the other. -/
theorem declare (spoilt : a.Spoilt unknown b) {name : String} {symbol symbol' : Symbol}
    (isKnown : ¬unknown name) (symbols : symbol.Spoilt symbol') :
    (a.declare? name symbol = none ∧ b.declare? name symbol' = none) ∨
      ∃ a' b', a.declare? name symbol = some a' ∧ b.declare? name symbol' = some b' ∧
        a'.Spoilt unknown b' := by
  unfold declare?
  rw [spoilt.contains]
  cases a.inner.contains name with
  | true => exact .inl ⟨rfl, rfl⟩
  | false => exact .inr ⟨_, _, rfl, rfl, spoilt.replace isKnown symbols⟩

end Scope.Spoilt

namespace Binding

open Source (Token Name TypeClause Misspelling)

variable {file : Option String} {a b : Scope} {given : Prop} {unknown : String → Prop}
  {c : BindContext} {loops : List LoopLabels}

def ScopesSpoilt (unknown : String → Prop) {α β : Type} (r : α × Scope) (r' : β × Scope) :
    Prop := r.2.Spoilt unknown r'.2

theorem type?_reports {clause clause' : TypeClause} (text : clause'.name.text = clause.name.text) :
    Reports given [] (type? file clause) (type? file clause') fun t? t?' => t?' = t? ∧ t? ≠ none := by
  unfold type?
  rw [text]
  split
  · exact .pure fun _ => ⟨rfl, Option.some_ne_none _⟩
  · exact .of_refused rfl

theorem declareVar_reports {name name' : Name} {readOnly : Bool} {t t' : Ty}
    {constant constant' : Option Value} (text : name'.text = name.text)
    (isKnown : ¬unknown name.text) (scopes : given → a.Spoilt unknown b)
    (ty : given → t.Spoilt t') :
    Reports given [] (declareVar c a name readOnly t constant)
      (declareVar { c with loops } b name' readOnly t' constant') (ScopesSpoilt unknown) := by
  let kind : VarKind := if c.function.isNone then .globalVar else .localVar
  have made : Reports given [] (Bind.fresh (Var.create name.text readOnly t kind constant))
      (Bind.fresh (Var.create name.text readOnly t' kind constant'))
      fun v v' => (Symbol.var v).Spoilt (.var v') := by
    refine .fresh fun n holds => ⟨rfl, .var ?_ (ty holds)⟩
    cases readOnly <;> rfl
  unfold declareVar
  rw [text]
  refine made.bindQuiet fun v v' => ?_
  refine .of_given (P := fun _ => True) ?_ fun holds => ?_
  · split
    · exact .pure fun _ => trivial
    · exact .refused rfl
  · rcases (scopes holds.1).declare isKnown holds.2 with ⟨ofA, _⟩ | ⟨a', b', ofA, ofB, scopes'⟩
    · rw [ofA]
      exact .of_refused rfl
    · rw [ofA, ofB]
      exact .pure fun _ => scopes'

theorem clauseType_reports {type type' : Option TypeClause} (same : TypeClause.Same type type') :
    Reports given [] (clauseType file type) (clauseType file type')
      fun t? t?' => t?' = t? ∧ (type ≠ none → t? ≠ none) := by
  cases type with
  | none =>
    cases type' with
    | none => exact .pure fun _ => ⟨rfl, fun given => absurd rfl given⟩
    | some clause' => contradiction
  | some clause =>
    cases type' with
    | none => contradiction
    | some clause' =>
      have text : clause'.name.text = clause.name.text := Option.some.inj same
      exact (type?_reports text).mono id fun _ _ _ both => ⟨both.1, fun _ => both.2⟩

theorem declaration_reports {ds : List Misspelling} {keyword keyword' : Token} {name name' : Name}
    {type type' : Option TypeClause} {e e' : Source.Expr} (kind : keyword'.kind = keyword.kind)
    (text : name'.text = name.text) (same : TypeClause.Same type type') (spelt : e.Misspelt ds e')
    (areUnknown : ∀ m ∈ ds, unknown m.name.text) (isKnown : ¬unknown name.text)
    (scopes : given → a.Spoilt unknown b)
    (types : List.Forall₂ Ty.Spoilt (plainTypes c.file a false e) (plainTypes c.file b false e')) :
    Reports given (ds.map (·.report c.file)) (declaration c a keyword name type e)
      (declaration { c with loops } b keyword' name' type' e') (ScopesSpoilt unknown) := by
  rw [declaration_eq, declaration_eq, kind]
  refine (clauseType_reports same).behindQuiet fun t? t?' => ?_
  refine (value_reports spelt areUnknown (fun holds => scopes holds.1) types).bindQuiet fun v v' => ?_
  have ty (holds : (given ∧ t?' = t? ∧ (type ≠ none → t? ≠ none)) ∧ Spoilt false v v') :
      (t?.getD v.ty).Spoilt (t?'.getD v'.ty) := by
    obtain ⟨⟨_, rfl, _⟩, related⟩ := holds
    cases t?' with
    | some t => exact .inl rfl
    | none => exact related.ty rfl
  refine (convert_reports And.right ty).bindQuiet fun v v' => ?_
  refine (declareVar_reports text isKnown (fun holds => scopes holds.1.1.1)
    fun holds => ty holds.1).bindQuiet fun r r' => ?_
  exact .pure And.right

theorem loopRange_reports {ds : List Misspelling} {e e' : Source.Expr}
    (spelt : e.Misspelt ds e')
    (areUnknown : ∀ m ∈ ds, unknown m.name.text)
    (scopes : given → a.Spoilt unknown b)
    (types : List.Forall₂ Ty.Spoilt (plainTypes file a false e) (plainTypes file b false e')) :
    Reports given (ds.map (·.report file)) (loopRange file a e) (loopRange file b e')
      fun _ _ => True := by
  cases spelt with
  | range left right =>
    obtain ⟨inLeft, inRight⟩ := List.forall_mem_append.1 areUnknown
    obtain ⟨ofLeft, ofRight⟩ := forall₂_of_append types (length_plainTypes left false a b)
    unfold loopRange
    rw [List.map_append]
    refine (value_reports left inLeft scopes ofLeft).bind fun l l' => ?_
    have sound (l : Expr) (upper : Source.Expr) : Sound False (do
        return Expr.range l (← valueOf file a .int upper)) fun _ => True :=
      (valueOf_sound False.elim (by decide) upper).bind fun _ => .pure fun _ => trivial
    dsimp only
    split
    · exact .of_reported rfl fun _ => sound _ _
    next isInt =>
      refine .of_given (sound _ _) fun holds => ?_
      have isInt' : ¬(!l'.isError && l'.ty != .int) = true := by
        unfold Expr.isError at isInt ⊢
        rcases holds.2.ty rfl with same | lost
        · rwa [same]
        · simp [lost]
      rw [if_neg isInt', pure_bind, pure_bind]
      refine (valueOf_reports right inRight (fun _ => scopes holds.1) ofRight).bindQuiet fun _ _ => ?_
      exact .pure fun _ => trivial
  | _ => exact .of_refused rfl

theorem jump_reports {keyword keyword' : Token} (depth : loops.length = c.loops.length) :
    Reports given [] (jump c keyword) (jump { c with loops } keyword') fun _ _ => True := by
  unfold jump
  cases inner : c.loops with
  | nil => exact .of_refused rfl
  | cons labels outer =>
    cases loops with
    | nil => simp [inner] at depth
    | cons labels' outer' => exact .pure fun _ => trivial

theorem returnStmt_reports {keyword keyword' : TextRange} :
    Reports given [] (returnStmt c keyword none) (returnStmt { c with loops } keyword' none)
      fun _ _ => True := by
  unfold returnStmt
  cases c.function with
  | none => exact .of_refused rfl
  | some f =>
    dsimp only
    split
    · exact .of_refused rfl
    · exact .pure fun _ => trivial

theorem returnStmt_reports_value {keyword keyword' range range' : TextRange} {e e' : Expr}
    (spoilt : given → Spoilt false e e') :
    Reports given [] (returnStmt c keyword (some (range, e)))
      (returnStmt { c with loops } keyword' (some (range', e'))) fun _ _ => True := by
  unfold returnStmt
  cases c.function with
  | none => exact .of_refused rfl
  | some f =>
    dsimp only
    split
    · exact .of_refused rfl
    · exact (convert_reports_same spoilt).bindQuiet fun _ _ => .pure fun _ => trivial

theorem newLoop_reports :
    Reports given [] (Bind.fresh newLoop) (Bind.fresh newLoop) fun _ _ => True :=
  .fresh fun _ _ => ⟨rfl, trivial⟩

theorem exprStmt_reports {ds : List Misspelling} {m m' : Source.Mark} {e e' : Source.Expr}
    (isGlobal : Bool) (spelt : e.Misspelt ds e') (areUnknown : ∀ m ∈ ds, unknown m.name.text)
    (scopes : given → a.Spoilt unknown b)
    (types : List.Forall₂ Ty.Spoilt (plainTypes c.file a true e) (plainTypes c.file b true e')) :
    Reports given (ds.map (·.report c.file)) (stmt c isGlobal a (.expr m e))
      (stmt { c with loops } isGlobal b (.expr m' e')) (ScopesSpoilt unknown) := by
  unfold stmt
  refine (expr_reports spelt areUnknown scopes types).bindQuiet fun bound bound' => ?_
  dsimp only
  split
  · exact .of_refused rfl
  next stands =>
    refine .of_given (P := fun _ => True) (.pure fun _ => trivial) fun holds => ?_
    have stands' : ¬(!(c.scriptMode && isGlobal) && !standsAlone bound') = true := by
      have kept := holds.2.stands
      grind
    rw [if_neg stands']
    exact .pure fun _ => scopes holds.1

mutual

/-- Each misspelt name of a statement is reported, and nothing else. The labels of the loops around it
may be others. -/
theorem stmt_reports {ds : List Misspelling} {t t' : Source.Stmt} {given : Prop} {a b : Scope}
    {c : BindContext} {loops : List LoopLabels} (isGlobal : Bool) (spelt : t.Misspelt ds t')
    (areUnknown : ∀ m ∈ ds, unknown m.name.text) (declares : ∀ n ∈ t.declares, ¬unknown n)
    (scopes : given → a.Spoilt unknown b) (depth : loops.length = c.loops.length) (s s' : BindState)
    (types : List.Forall₂ Ty.Spoilt (sitesPlainTypes c.file (stmtSites c a s t))
      (sitesPlainTypes c.file (stmtSites { c with loops } b s' t'))) :
    ReportsAt s s' given (ds.map (·.report c.file)) (stmt c isGlobal a t)
      (stmt { c with loops } isGlobal b t') (ScopesSpoilt unknown) := by
  cases spelt with
  | block body =>
    unfold stmt
    exact (stmts_reports body areUnknown declares (fun holds => (scopes holds).push) depth s s'
      types).bindQuiet (.pure fun holds => scopes holds.1)
  | declare kind text same spelt =>
    simp only [stmtSites, sitesPlainTypes_cons, sitesPlainTypes_nil, List.append_nil] at types
    unfold stmt
    exact (declaration_reports kind text same spelt areUnknown (declares _ List.mem_cons_self) scopes
      types).at s s'
  | ifThen condition thenBody =>
    obtain ⟨inCondition, inBody⟩ := List.forall_mem_append.1 areUnknown
    simp only [stmtSites, sitesPlainTypes_cons] at types
    obtain ⟨ofCondition, ofBody⟩ := forall₂_of_append types (length_plainTypes condition false a b)
    unfold stmt
    rw [List.map_append]
    refine ((valueOf_reports condition inCondition scopes ofCondition).at s s').bind ?_
    refine (stmt_reports false thenBody inBody declares (fun holds => scopes holds.1) depth _ _
      ofBody).bindQuiet ?_
    exact .pure And.right
  | ifElse condition thenBody elseBody =>
    obtain ⟨inCondition, inBodies⟩ := List.forall_mem_append.1 areUnknown
    obtain ⟨inThen, inElse⟩ := List.forall_mem_append.1 inBodies
    obtain ⟨byThen, byElse⟩ := List.forall_mem_append.1 declares
    simp only [stmtSites, sitesPlainTypes_cons, sitesPlainTypes_append] at types
    obtain ⟨ofCondition, ofBodies⟩ := forall₂_of_append types (length_plainTypes condition false a b)
    obtain ⟨ofThen, ofElse⟩ := forall₂_of_append ofBodies (length_stmtSites thenBody _ _ _ _ _ _)
    unfold stmt
    rw [List.map_append, List.map_append]
    refine ((valueOf_reports condition inCondition scopes ofCondition).at s s').bind ?_
    refine (stmt_reports false thenBody inThen byThen (fun holds => scopes holds.1) depth _ _
      ofThen).bind ?_
    refine (stmt_reports false elseBody inElse byElse And.right depth _ _ ofElse).bindQuiet ?_
    exact .pure And.right
  | whileDo condition body =>
    obtain ⟨inCondition, inBody⟩ := List.forall_mem_append.1 areUnknown
    simp only [stmtSites, sitesPlainTypes_cons] at types
    obtain ⟨ofCondition, ofBody⟩ := forall₂_of_append types (length_plainTypes condition false a b)
    unfold stmt
    rw [List.map_append]
    refine ((valueOf_reports condition inCondition scopes ofCondition).at s s').bind ?_
    refine (newLoop_reports.at _ _).behindQuiet ?_
    refine (stmt_reports false body inBody declares (fun holds => scopes holds.1.1)
      (congrArg (· + 1) depth) _ _ ofBody).bindQuiet ?_
    exact .pure And.right
  | doWhile body condition =>
    obtain ⟨inBody, inCondition⟩ := List.forall_mem_append.1 areUnknown
    simp only [stmtSites, sitesPlainTypes_cons, sitesPlainTypes_append, sitesPlainTypes_nil,
      List.append_nil] at types
    obtain ⟨ofBody, ofCondition⟩ := forall₂_of_append types (length_stmtSites body _ _ _ _ _ _)
    unfold stmt
    rw [List.map_append]
    refine (newLoop_reports.at s s').behindQuiet ?_
    refine (stmt_reports false body inBody declares (fun holds => scopes holds.1)
      (congrArg (· + 1) depth) _ _ ofBody).bind ?_
    refine ((valueOf_reports condition inCondition And.right ofCondition).at _ _).bindQuiet ?_
    exact .pure fun holds => holds.1.2
  | forIn text range body =>
    obtain ⟨inRange, inBody⟩ := List.forall_mem_append.1 areUnknown
    obtain ⟨isKnown, byBody⟩ := List.forall_mem_cons.1 declares
    simp only [stmtSites, sitesPlainTypes_cons] at types
    obtain ⟨ofRange, ofBody⟩ := forall₂_of_append types (length_plainTypes range false a b)
    unfold stmt
    rw [List.map_append]
    refine ((loopRange_reports range inRange scopes ofRange).at s s').bind ?_
    refine ((declareVar_reports text isKnown (fun holds => (scopes holds.1).push)
      fun _ => .inl rfl).at _ _).behindQuiet ?_
    refine (newLoop_reports.at _ _).behindQuiet ?_
    refine (stmt_reports false body inBody byBody (fun holds => holds.1.2) (congrArg (· + 1) depth)
      _ _ ofBody).bindQuiet ?_
    exact .pure fun holds => scopes holds.1.1.1.1
  | jump kind =>
    unfold stmt
    exact ((jump_reports depth).at s s').bindQuiet (.pure fun holds => scopes holds.1)
  | ret =>
    unfold stmt
    exact (returnStmt_reports.at s s').bindQuiet (.pure fun holds => scopes holds.1)
  | retValue spelt =>
    simp only [stmtSites, sitesPlainTypes_cons, sitesPlainTypes_nil, List.append_nil] at types
    unfold stmt
    refine ((value_reports spelt areUnknown scopes types).at s s').bindQuiet ?_
    refine ((returnStmt_reports_value And.right).at _ _).bindQuiet ?_
    exact .pure fun holds => scopes holds.1.1
  | expr spelt =>
    simp only [stmtSites, sitesPlainTypes_cons, sitesPlainTypes_nil, List.append_nil] at types
    exact (exprStmt_reports isGlobal spelt areUnknown scopes types).at s s'

theorem stmts_reports {ds : List Misspelling} {ts ts' : List Source.Stmt} {given : Prop}
    {a b : Scope} {c : BindContext} {loops : List LoopLabels}
    (spelt : Source.Stmt.AllMisspelt ds ts ts') (areUnknown : ∀ m ∈ ds, unknown m.name.text)
    (declares : ∀ n ∈ Source.Stmt.declaresOf ts, ¬unknown n) (scopes : given → a.Spoilt unknown b)
    (depth : loops.length = c.loops.length) (s s' : BindState)
    (types : List.Forall₂ Ty.Spoilt (sitesPlainTypes c.file (stmtsSites c a s ts))
      (sitesPlainTypes c.file (stmtsSites { c with loops } b s' ts'))) :
    ReportsAt s s' given (ds.map (·.report c.file)) (stmts c a ts) (stmts { c with loops } b ts')
      (ScopesSpoilt unknown) := by
  cases spelt with
  | nil => exact .pure scopes
  | cons first rest =>
    obtain ⟨inFirst, inRest⟩ := List.forall_mem_append.1 areUnknown
    obtain ⟨byFirst, byRest⟩ := List.forall_mem_append.1 declares
    simp only [stmtsSites, sitesPlainTypes_append] at types
    obtain ⟨ofFirst, ofRest⟩ := forall₂_of_append types (length_stmtSites first _ _ _ _ _ _)
    unfold stmts
    rw [List.map_append]
    refine (stmt_reports false first inFirst byFirst scopes depth s s' ofFirst).bind ?_
    refine (stmts_reports rest inRest byRest And.right depth _ _ ofRest).bindQuiet ?_
    exact .pure And.right

end

end Binding

end ScriptLang
