import ScriptLang.Proofs.BindingExpr

/-! Where binding a statement reports nothing, the statement is well typed for the function
around it, and so are the symbols that it leaves in scope. -/

namespace ScriptLang.Binding

open Source (Token Name TypeClause)

variable {given : Prop} {c : BindContext} {file : Option String} {scope : Scope}

structure StmtBound (returns : Option Ty) (bound : Stmt × Scope) : Prop where
  stmt : bound.1.WellTyped Var.Assignable returns
  scope : bound.2.WellTyped

theorem type?_sound (clause : TypeClause) :
    Sound given (type? file clause) fun t? => ∃ t, t? = some t ∧ t ≠ .error := by
  unfold type?
  cases named : Ty.ofName? clause.name.text with
  | none => exact Sound.refused rfl
  | some t =>
    refine .pure fun _ => ⟨t, rfl, ?_⟩
    rintro rfl
    exact Ty.ofName?_ne_error named

/-- A variable as it was asked for. -/
structure VarMade (ty : Ty) (constant : Option Value) (v : Var) : Prop where
  ty : v.ty = ty
  constant : constant = none → v.constant = none
  wellTyped : v.WellTyped

theorem declareVar_sound {name : Name} {readOnly : Bool} {ty : Ty} {constant : Option Value}
    (wellTyped : given → scope.WellTyped) (known : given → ty ≠ .error)
    (typed : given → ∀ value, constant = some value → value.HasType ty) :
    Sound given (declareVar c scope name readOnly ty constant) fun declared =>
      VarMade ty constant declared.1 ∧ declared.2.WellTyped := by
  have create (kind : VarKind) :
      Sound given (Bind.fresh (Var.create name.text readOnly ty kind constant))
        (VarMade ty constant) := by
    refine .fresh fun n holds => ?_
    cases readOnly with
    | true => exact ⟨rfl, id, known holds, typed holds⟩
    | false => exact ⟨rfl, fun _ => rfl, known holds, fun value equal => by contradiction⟩
  unfold declareVar
  refine (create _).bind fun v => ?_
  cases declared : scope.declare? name.text (.var v) with
  | none => exact Sound.refused rfl
  | some scope' =>
    refine .pure fun ⟨holds, made⟩ => ⟨made, ?_⟩
    have symbol : Symbol.WellTyped (.var v) := made.wellTyped
    exact (wellTyped holds).declare symbol declared

theorem declaration_sound {keyword : Token} {name : Name} {type : Option TypeClause}
    {source : Source.Expr} {returns : Option Ty} (wellTyped : given → scope.WellTyped) :
    Sound given (declaration c scope keyword name type source) (StmtBound returns) := by
  unfold declaration
  extract_lets rest
  have restSound (declared : Option Ty) :
      Sound (given ∧ ∀ t, declared = some t → t ≠ .error) (rest declared) (StmtBound returns) := by
    refine (value_sound (fun holds => wellTyped holds.1) source).bind fun bound => ?_
    have known (holds : (given ∧ ∀ t, declared = some t → t ≠ .error) ∧ bound.IsValue) :
        declared.getD bound.ty ≠ .error := by
      cases declared with
      | none => exact holds.2.wellTyped.ty_ne_error
      | some t => exact holds.1.2 t rfl
    refine (convert_sound And.right known).bind fun converted => ?_
    refine (declareVar_sound (fun holds => wellTyped holds.1.1.1) (fun holds => known holds.1)
      fun holds constant equal => ?_).bind fun made => ?_
    · exact holds.2.ty ▸ holds.2.wellTyped.constant_hasType equal
    · refine .pure fun holds => ?_
      obtain ⟨⟨_, fits⟩, var, after⟩ := holds
      exact ⟨⟨var.wellTyped, var.ty ▸ fits⟩, after⟩
  cases type with
  | none =>
    exact Sound.bind (.pure fun _ _ equal => by contradiction) restSound
  | some clause =>
    refine ((type?_sound clause).mono id ?_).bind restSound
    rintro _ _ ⟨t, rfl, known⟩ u equal
    exact Option.some.inj equal ▸ known

def IsIntRange (range : Expr) : Prop :=
  ∃ lower upper, range = .range lower upper ∧ lower.Fits Var.Assignable .int ∧
    upper.Fits Var.Assignable .int

theorem loopRange_sound (wellTyped : given → scope.WellTyped) (range : Source.Expr) :
    Sound given (loopRange file scope range) IsIntRange := by
  cases range with
  | range m lower upper =>
    have rest {other : Prop} (l : Expr) (stronger : other → given)
        (fits : other → l.Fits Var.Assignable .int) : Sound other (do
          let u ← valueOf file scope .int upper
          return Expr.range l u) IsIntRange :=
      (valueOf_sound (fun holds => wellTyped (stronger holds)) (by decide) upper).bind
        fun u => .pure fun ⟨holds, fitsUpper⟩ => ⟨l, u, rfl, fits holds, fitsUpper⟩
    refine (value_sound wellTyped lower).bind fun l => ?_
    dsimp only
    split
    · exact Sound.reported rfl fun _ => Sound.bind (P := fun _ => True)
        (.pure fun _ => trivial) fun e =>
          (rest e (fun impossible => impossible.1.elim) fun impossible => impossible.1.elim).mono
            id fun _ _ _ => trivial
    next isInt =>
      refine rest l And.left fun ⟨_, isValue⟩ => ⟨?_, isValue.hasValue, isValue.wellTyped⟩
      simpa [isValue.wellTyped.isError] using isInt
  | _ => exact Sound.refused rfl

theorem jump_sound {keyword : Token} {returns : Option Ty} :
    Sound given (jump c keyword) (Stmt.WellTyped Var.Assignable returns) := by
  unfold jump
  cases c.loops with
  | nil => exact Sound.refused rfl
  | cons labels loops => exact .pure fun _ => trivial

theorem returnStmt_sound {keyword : TextRange} {bound : Option (TextRange × Expr)}
    (known : given → ∀ f, c.function = some f → f.returns ≠ .error)
    (isValue : given → ∀ range e, bound = some (range, e) → e.IsValue) :
    Sound given (returnStmt c keyword bound)
      (Stmt.WellTyped Var.Assignable (c.function.map Fn.returns)) := by
  unfold returnStmt
  cases function : c.function with
  | none => exact Sound.refused rfl
  | some f =>
    cases bound with
    | none =>
      dsimp only
      split
      · exact Sound.refused rfl
      next isVoid =>
        refine .pure fun holds => ?_
        have notError := known holds f function
        simp_all [Stmt.WellTyped]
    | some pair =>
      obtain ⟨range, e⟩ := pair
      dsimp only
      split
      · exact Sound.refused rfl
      · exact (convert_sound (fun holds => isValue holds range e rfl)
          fun holds => known holds f function).bind fun _ =>
            .pure fun ⟨_, fits⟩ => ⟨f.returns, rfl, fits⟩

/-- What binding a statement starts from: the symbols in scope are well typed, and so is the
function around it. -/
structure Prepared (c : BindContext) (scope : Scope) : Prop where
  scope : scope.WellTyped
  known : ∀ f, c.function = some f → f.returns ≠ .error

theorem Prepared.enter (prepared : Prepared c scope) (labels : LoopLabels) {scope' : Scope}
    (wellTyped : scope'.WellTyped) : Prepared (BindContext.enter c labels) scope' :=
  ⟨wellTyped, prepared.known⟩

mutual

theorem stmt_sound {given : Prop} {c : BindContext} {scope : Scope} (isGlobal : Bool)
    (prepared : given → Prepared c scope) (s : Source.Stmt) :
    Sound given (stmt c isGlobal scope s) (StmtBound (c.function.map Fn.returns)) := by
  cases s with
  | block m body =>
    refine (stmts_sound (fun holds => ⟨(prepared holds).scope.push, (prepared holds).known⟩)
      body).bind fun bound => .pure fun ⟨holds, typed, _⟩ => ⟨typed, (prepared holds).scope⟩
  | declare m keyword name type source =>
    exact declaration_sound fun holds => (prepared holds).scope
  | ifThen m condition thenBody =>
    refine (valueOf_sound (fun holds => (prepared holds).scope) (by decide) condition).bind
      fun condition => ?_
    refine (stmt_sound false (fun holds => prepared holds.1) thenBody).bind fun thenBody => ?_
    exact .pure fun ⟨⟨_, fits⟩, bound⟩ => ⟨⟨fits, bound.stmt⟩, bound.scope⟩
  | ifElse m condition thenBody elseBody =>
    refine (valueOf_sound (fun holds => (prepared holds).scope) (by decide) condition).bind
      fun condition => ?_
    refine (stmt_sound false (fun holds => prepared holds.1) thenBody).bind fun thenBody => ?_
    refine (stmt_sound false (fun holds => ⟨holds.2.scope, (prepared holds.1.1).known⟩)
      elseBody).bind fun elseBody => ?_
    exact .pure fun ⟨⟨⟨_, fits⟩, bound⟩, bound'⟩ =>
      ⟨⟨fits, bound.stmt, bound'.stmt⟩, bound'.scope⟩
  | whileDo m condition body =>
    refine (valueOf_sound (fun holds => (prepared holds).scope) (by decide) condition).bind
      fun condition => ?_
    refine Sound.bind (P := fun _ => True) (.fresh fun _ _ => trivial) fun labels => ?_
    refine (stmt_sound false (fun holds => (prepared holds.1.1).enter labels
      (prepared holds.1.1).scope) body).bind fun body => ?_
    exact .pure fun ⟨⟨⟨_, fits⟩, _⟩, bound⟩ => ⟨⟨fits, bound.stmt⟩, bound.scope⟩
  | doWhile m body condition =>
    refine Sound.bind (P := fun _ => True) (.fresh fun _ _ => trivial) fun labels => ?_
    refine (stmt_sound false (fun holds => (prepared holds.1).enter labels
      (prepared holds.1).scope) body).bind fun body => ?_
    refine (valueOf_sound (fun holds => holds.2.scope) (by decide) condition).bind
      fun condition => ?_
    exact .pure fun ⟨⟨_, bound⟩, fits⟩ => ⟨⟨fits, bound.stmt⟩, bound.scope⟩
  | forIn m name range body =>
    refine (loopRange_sound (fun holds => (prepared holds).scope) range).bind fun range => ?_
    refine (declareVar_sound (fun holds => (prepared holds.1).scope.push)
      (fun _ => by decide) fun _ _ equal => by contradiction).bind fun declared => ?_
    refine Sound.bind (P := fun _ => True) (.fresh fun _ _ => trivial) fun labels => ?_
    refine (stmt_sound false (fun holds => (prepared holds.1.1.1).enter labels holds.1.2.2)
      body).bind fun body => ?_
    exact .pure fun ⟨⟨⟨⟨holds, isRange⟩, made, _⟩, _⟩, bound⟩ =>
      ⟨⟨⟨made.ty, made.constant rfl⟩, isRange, bound.stmt⟩, (prepared holds).scope⟩
  | jump keyword =>
    exact jump_sound.bind fun _ => .pure fun ⟨holds, typed⟩ => ⟨typed, (prepared holds).scope⟩
  | ret m keyword value =>
    cases value with
    | none =>
      refine (returnStmt_sound (fun holds => (prepared holds).known) fun _ _ _ equal => by
        contradiction).bind fun _ => ?_
      exact .pure fun ⟨holds, typed⟩ => ⟨typed, (prepared holds).scope⟩
    | some e =>
      refine (value_sound (fun holds => (prepared holds).scope) e).bind fun bound => ?_
      refine (returnStmt_sound (fun holds => (prepared holds.1).known) ?_).bind fun _ => ?_
      · rintro holds _ _ equal
        obtain ⟨_, rfl⟩ := Prod.mk.inj (Option.some.inj equal)
        exact holds.2
      · exact .pure fun ⟨holds, typed⟩ => ⟨typed, (prepared holds.1).scope⟩
  | expr m e =>
    refine (expr_sound (fun holds => (prepared holds).scope) e).bind fun bound => ?_
    dsimp only
    split
    · exact Sound.refused rfl
    · exact .pure fun ⟨holds, typed⟩ => ⟨typed, (prepared holds).scope⟩

theorem stmts_sound {given : Prop} {c : BindContext} {scope : Scope}
    (prepared : given → Prepared c scope) (ss : List Source.Stmt) :
    Sound given (stmts c scope ss) fun bound =>
      Stmt.AllWellTyped Var.Assignable (c.function.map Fn.returns) bound.1 ∧
        bound.2.WellTyped := by
  cases ss with
  | nil => exact .pure fun holds => ⟨trivial, (prepared holds).scope⟩
  | cons s ss =>
    refine (stmt_sound false prepared s).bind fun first => ?_
    refine (stmts_sound (fun holds => ⟨holds.2.scope, (prepared holds.1).known⟩) ss).bind
      fun rest => ?_
    exact .pure fun ⟨⟨_, bound⟩, typed, scope⟩ => ⟨⟨bound.stmt, typed⟩, scope⟩

end

end ScriptLang.Binding
