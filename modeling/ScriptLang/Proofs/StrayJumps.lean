import ScriptLang.Proofs.BindingPasses

/-! A `break` or `continue` that stands in no loop is reported once, at its keyword, and nothing else is
reported in this way. So the reports of a unit list these jumps in the order in which its parts are
bound. -/

namespace ScriptLang

/-- It says that `break` or `continue` stands outside of all loops. -/
def Diagnostic.isStrayJump (d : Diagnostic) : Bool := d.code = Message.invalidBreakOrContinue.code

def strayJump (file : Option String) (keyword : Source.Token) : Diagnostic :=
  .ofMessage .invalidBreakOrContinue [keyword.kind.text?.getD ""] file
    (some keyword.mark.range.toSpan)

def BindState.strays (s : BindState) : List Diagnostic :=
  s.diagnostics.items.filter Diagnostic.isStrayJump

namespace Source.Stmt

mutual

/-- The jumps in a statement that stand in none of its loops. -/
def strayJumps : Stmt → List Token
  | block _ body => strayJumpsOf body
  | ifThen _ _ t => t.strayJumps
  | ifElse _ _ t e => t.strayJumps ++ e.strayJumps
  | jump keyword => [keyword]
  | whileDo _ _ _ | doWhile _ _ _ | forIn _ _ _ _ | declare _ _ _ _ _ | ret _ _ _ | expr _ _ => []

def strayJumpsOf : List Stmt → List Token
  | [] => []
  | s :: ss => s.strayJumps ++ strayJumpsOf ss

end

end Source.Stmt

/-- Whatever the state, `x` reports these jumps outside of loops, in order, and no others. -/
def ReportsStrays {α : Type} (x : Bind α) (reports : List Diagnostic) : Prop :=
  ∀ s, (x s).2.strays = s.strays ++ reports

abbrev SparesJumps {α : Type} (x : Bind α) : Prop := ReportsStrays x []

namespace ReportsStrays

variable {α β : Type} {x : Bind α} {f : α → Bind β} {ds ds' : List Diagnostic}

theorem pure (a : α) : SparesJumps (Pure.pure a) := fun s => (List.append_nil s.strays).symm

theorem bind (first : ReportsStrays x ds) (second : ∀ a, ReportsStrays (f a) ds') :
    ReportsStrays (x >>= f) (ds ++ ds') := by
  intro s
  show (f (x s).1 (x s).2).2.strays = s.strays ++ (ds ++ ds')
  rw [second (x s).1 (x s).2, first s, List.append_assoc]

/-- A computation that reports no such jump may come first. -/
theorem after (first : SparesJumps x) (second : ∀ a, ReportsStrays (f a) ds) :
    ReportsStrays (x >>= f) ds := first.bind second

/-- A computation that reports no such jump may come last. -/
theorem before (first : ReportsStrays x ds) (second : ∀ a, SparesJumps (f a)) :
    ReportsStrays (x >>= f) ds := by
  have whole := first.bind second
  rwa [List.append_nil] at whole

theorem fresh (x : Fresh α) : SparesJumps (Bind.fresh x) := fun _ => (List.append_nil _).symm

/-- Something else is reported. -/
theorem report {file : Option String} {range : TextRange} {m : Message} {args : List String}
    (other : m.code ≠ Message.invalidBreakOrContinue.code) :
    SparesJumps (Bind.report file range m args) := by
  intro s
  have isOther : (Diagnostic.ofMessage m args file (some range.toSpan)).isStrayJump = false :=
    decide_eq_false other
  simp [Bind.report, BindState.strays, isOther]

theorem reported {file : Option String} {range : TextRange} {m : Message} {args : List String}
    {f : PUnit → Bind β} (other : m.code ≠ Message.invalidBreakOrContinue.code)
    (second : ∀ a, ReportsStrays (f a) ds) : ReportsStrays (Bind.report file range m args >>= f) ds :=
  (report other).after second

end ReportsStrays

namespace Binding

open Source (Token Name TypeClause)
open ReportsStrays (pure reported fresh)

variable {file : Option String} {scope : Scope} {c : BindContext}

theorem requireValue_spares {range : TextRange} {bound : Expr} :
    SparesJumps (requireValue file range bound) := by
  unfold requireValue
  split
  · exact reported (by decide) fun _ => pure _
  · exact pure _

theorem convert_spares {range : TextRange} {e : Expr} {target : Ty} {allowExplicit : Bool} :
    SparesJumps (convert file range e target allowExplicit) := by
  unfold convert
  split
  · exact pure _
  · cases Conversion.classify e.ty target with
    | none => exact reported (by decide) fun _ => pure _
    | identity | implicit => exact pure _
    | explicit =>
      dsimp only
      split
      · exact reported (by decide) fun _ => pure _
      · exact pure _

theorem resolveVar_spares {name : Name} : SparesJumps (resolveVar file scope name) := by
  unfold resolveVar
  cases scope.lookup? name.text with
  | none => exact reported (by decide) fun _ => pure _
  | some symbol =>
    cases symbol with
    | var v => exact pure _
    | fn f => exact reported (by decide) fun _ => pure _

theorem unary_spares {op : Token} {operand : Expr} : SparesJumps (unary file op operand) := by
  unfold unary
  split
  · exact pure _
  · cases UnaryOp.resolve? op.kind operand.ty with
    | none => exact reported (by decide) fun _ => pure _
    | some o => exact pure _

theorem binary_spares {op : Token} {kind : Source.Kind} {left right : Expr} :
    SparesJumps (binary file op kind left right) := by
  unfold binary
  split
  · exact pure _
  · cases BinaryOp.resolve? kind left.ty right.ty with
    | none => exact reported (by decide) fun _ => pure _
    | some o => exact pure _

theorem assignTo_spares {op : Token} {range : TextRange} {value : Expr} {v : Var} :
    SparesJumps (assignTo file op range value v) := by
  unfold assignTo
  cases op.kind.compound? with
  | none => exact convert_spares.after fun _ => pure _
  | some kind =>
    refine binary_spares.after fun combined => ?_
    split
    · exact pure _
    · exact convert_spares.after fun _ => pure _

theorem assign_spares {target : Name} {op : Token} {range : TextRange} {value : Expr} :
    SparesJumps (assign file scope target op range value) := by
  rw [assign_eq]
  refine resolveVar_spares.after fun v? => ?_
  cases v? with
  | none => exact pure _
  | some v =>
    dsimp only
    split
    · exact reported (by decide) fun _ => assignTo_spares
    · exact assignTo_spares

theorem convertArgs_spares {sources : List Source.Expr} {args : List Expr} {ps : List Var} :
    SparesJumps (convertArgs file sources args ps) := by
  induction sources generalizing args ps with
  | nil => exact pure _
  | cons source sources ih =>
    cases args with
    | nil => exact pure _
    | cons arg args =>
      cases ps with
      | nil => exact pure _
      | cons p ps => exact convert_spares.after fun _ => ih.after fun _ => pure _

theorem call_spares {range : TextRange} {callee : Name} {sources : List Source.Expr}
    {args : List Expr} : SparesJumps (call file scope range callee sources args) := by
  unfold call
  split
  next => exact convert_spares
  next =>
    cases scope.lookup? callee.text with
    | none => exact reported (by decide) fun _ => pure _
    | some symbol =>
      cases symbol with
      | var v => exact reported (by decide) fun _ => pure _
      | fn f =>
        dsimp only
        split
        · exact reported (by decide) fun _ => pure _
        · exact convertArgs_spares.after fun _ => pure _

mutual

theorem expr_spares (e : Source.Expr) : SparesJumps (expr file scope e) := by
  cases e with
  | paren m inner => exact expr_spares inner
  | literal m v => exact pure _
  | name m name =>
    refine resolveVar_spares.after fun v? => ?_
    cases v? <;> exact pure _
  | assign m target op value =>
    exact (expr_spares value).after fun _ => requireValue_spares.after fun _ => assign_spares
  | unary m op operand =>
    exact (expr_spares operand).after fun _ => requireValue_spares.after fun _ => unary_spares
  | binary m left op right =>
    refine (expr_spares left).after fun _ => requireValue_spares.after fun _ => ?_
    exact (expr_spares right).after fun _ => requireValue_spares.after fun _ => binary_spares
  | range m lower upper =>
    refine (expr_spares lower).after fun _ => requireValue_spares.after fun _ => ?_
    refine (expr_spares upper).after fun _ => requireValue_spares.after fun _ => ?_
    exact reported (by decide) fun _ => pure _
  | call m callee args => exact (exprs_spares args).after fun _ => call_spares

theorem exprs_spares (es : List Source.Expr) : SparesJumps (exprs file scope es) := by
  cases es with
  | nil => exact pure _
  | cons e es =>
    refine (expr_spares e).after fun _ => requireValue_spares.after fun _ => ?_
    exact (exprs_spares es).after fun _ => pure _

end

theorem value_spares {e : Source.Expr} : SparesJumps (value file scope e) :=
  (expr_spares e).after fun _ => requireValue_spares

theorem valueOf_spares {target : Ty} {e : Source.Expr} :
    SparesJumps (valueOf file scope target e) :=
  value_spares.after fun _ => convert_spares

theorem type?_spares {clause : TypeClause} : SparesJumps (type? file clause) := by
  unfold type?
  cases Ty.ofName? clause.name.text with
  | none => exact reported (by decide) fun _ => pure _
  | some t => exact pure _

theorem declareVar_spares {name : Name} {readOnly : Bool} {ty : Ty} {constant : Option Value} :
    SparesJumps (declareVar c scope name readOnly ty constant) := by
  unfold declareVar
  refine (fresh _).after fun v => ?_
  cases scope.declare? name.text (.var v) with
  | none => exact reported (by decide) fun _ => pure _
  | some scope' => exact pure _

theorem declaration_spares {keyword : Token} {name : Name} {type : Option TypeClause}
    {source : Source.Expr} : SparesJumps (declaration c scope keyword name type source) := by
  rw [declaration_eq]
  have clause : SparesJumps (clauseType c.file type) := by
    cases type with
    | none => exact pure _
    | some clause => exact type?_spares
  refine clause.after fun _ => value_spares.after fun _ => convert_spares.after fun _ => ?_
  exact declareVar_spares.after fun _ => pure _

theorem loopRange_spares (range : Source.Expr) : SparesJumps (loopRange file scope range) := by
  cases range with
  | range m lower upper =>
    have rest (l : Expr) : SparesJumps (do
        let u ← valueOf file scope .int upper
        return Expr.range l u) := valueOf_spares.after fun _ => pure _
    refine value_spares.after fun l => ?_
    dsimp only
    split
    · exact reported (by decide) fun _ => ReportsStrays.after (pure Expr.error) rest
    · exact rest l
  | _ => exact reported (by decide) fun _ => pure _

theorem returnStmt_spares {keyword : TextRange} {bound : Option (TextRange × Expr)} :
    SparesJumps (returnStmt c keyword bound) := by
  unfold returnStmt
  split
  · exact reported (by decide) fun _ => pure _
  · split
    · exact reported (by decide) fun _ => pure _
    · exact convert_spares.after fun _ => pure _
  · split
    · exact reported (by decide) fun _ => pure _
    · exact pure _

/-- The reports about jumps of a statement that stand in none of its loops: one for each, unless
there is a loop around the statement. -/
def strayReports (c : BindContext) (keywords : List Token) : List Diagnostic :=
  if c.loops.isEmpty then keywords.map (strayJump c.file) else []

theorem strayReports_append (c : BindContext) (first rest : List Token) :
    strayReports c (first ++ rest) = strayReports c first ++ strayReports c rest := by
  unfold strayReports
  split
  · exact List.map_append
  · rfl

theorem strayReports_nil (c : BindContext) : strayReports c [] = [] := by
  unfold strayReports
  split <;> rfl

theorem jump_strays {keyword : Token} : ReportsStrays (jump c keyword) (strayReports c [keyword]) := by
  unfold jump strayReports
  cases c.loops with
  | cons labels loops => exact pure _
  | nil =>
    have one : ReportsStrays (Bind.report c.file keyword.mark.range .invalidBreakOrContinue
        [keyword.kind.text?.getD ""]) [strayJump c.file keyword] := by
      intro s
      have isStray : (strayJump c.file keyword).isStrayJump = true := decide_eq_true rfl
      show (s.diagnostics.items ++ [strayJump c.file keyword]).filter _ = _
      rw [List.filter_append, List.filter_cons_of_pos isStray]
      rfl
    exact one.before fun _ => pure _

mutual

theorem stmt_strays {c : BindContext} {scope : Scope} (isGlobal : Bool) (s : Source.Stmt) :
    ReportsStrays (stmt c isGlobal scope s) (strayReports c s.strayJumps) := by
  cases s with
  | block m body => exact (stmts_strays body).before fun _ => pure _
  | ifThen m condition t =>
    exact valueOf_spares.after fun _ => (stmt_strays false t).before fun _ => pure _
  | ifElse m condition t e =>
    refine valueOf_spares.after fun _ => ?_
    rw [Source.Stmt.strayJumps, strayReports_append]
    exact (stmt_strays false t).bind fun _ => (stmt_strays false e).before fun _ => pure _
  | whileDo m condition body =>
    rw [Source.Stmt.strayJumps, strayReports_nil]
    refine valueOf_spares.after fun _ => (fresh _).after fun labels => ?_
    exact (stmt_strays false body).after fun _ => pure _
  | doWhile m body condition =>
    rw [Source.Stmt.strayJumps, strayReports_nil]
    refine (fresh _).after fun labels => (stmt_strays false body).after fun _ => ?_
    exact valueOf_spares.after fun _ => pure _
  | forIn m name range body =>
    rw [Source.Stmt.strayJumps, strayReports_nil]
    refine (loopRange_spares range).after fun _ => declareVar_spares.after fun _ => ?_
    exact (fresh _).after fun labels => (stmt_strays false body).after fun _ => pure _
  | jump keyword => exact jump_strays.before fun _ => pure _
  | declare m keyword name type source =>
    rw [Source.Stmt.strayJumps, strayReports_nil]
    exact declaration_spares
  | ret m keyword value =>
    rw [Source.Stmt.strayJumps, strayReports_nil]
    cases value with
    | none => exact returnStmt_spares.after fun _ => pure _
    | some e => exact value_spares.after fun _ => returnStmt_spares.after fun _ => pure _
  | expr m e =>
    rw [Source.Stmt.strayJumps, strayReports_nil]
    refine (expr_spares e).after fun bound => ?_
    dsimp only
    split
    · exact reported (by decide) fun _ => pure _
    · exact pure _

theorem stmts_strays {c : BindContext} {scope : Scope} (ss : List Source.Stmt) :
    ReportsStrays (stmts c scope ss) (strayReports c (Source.Stmt.strayJumpsOf ss)) := by
  cases ss with
  | nil =>
    rw [Source.Stmt.strayJumpsOf, strayReports_nil]
    exact pure _
  | cons s ss =>
    rw [Source.Stmt.strayJumpsOf, strayReports_append]
    exact (stmt_strays false s).bind fun _ => (stmts_strays ss).before fun _ => pure _

end

theorem globals_strays {c : BindContext} {scope : Scope} (ss : List Source.Stmt) :
    ReportsStrays (globals c scope ss) (strayReports c (Source.Stmt.strayJumpsOf ss)) := by
  induction ss generalizing scope with
  | nil =>
    rw [Source.Stmt.strayJumpsOf, strayReports_nil]
    exact pure _
  | cons s ss ih =>
    rw [Source.Stmt.strayJumpsOf, strayReports_append]
    exact (stmt_strays true s).bind fun _ => ih.before fun _ => pure _

theorem functionBody_strays {c : BindContext} (fn : Fn) (f : Source.Function) :
    ReportsStrays (functionBody c scope fn f)
      (strayReports c (Source.Stmt.strayJumpsOf f.body)) :=
  (stmts_strays f.body).before fun _ => pure _

theorem functionBodies_strays {c : BindContext} (declared : List (Fn × Source.Function)) :
    ReportsStrays (functionBodies c scope declared)
      (strayReports c (declared.flatMap (Source.Stmt.strayJumpsOf ·.2.body))) := by
  induction declared with
  | nil =>
    rw [List.flatMap_nil, strayReports_nil]
    exact pure _
  | cons p declared ih =>
    rw [List.flatMap_cons, strayReports_append]
    exact (functionBody_strays p.1 p.2).bind fun _ => ih.before fun _ => pure _

theorem parameters_spares {done : List Var} (ps : List Source.Parameter) :
    SparesJumps (parameters file done ps) := by
  induction ps generalizing done with
  | nil => exact pure _
  | cons p ps ih =>
    unfold parameters
    refine type?_spares.after fun _ => ?_
    dsimp only
    split
    · exact reported (by decide) fun _ => ih
    · exact (fresh _).after fun _ => ih

theorem declareFns_spares (fs : List Source.Function) : SparesJumps (declareFns file scope fs) := by
  have returns (clause : Option TypeClause) : SparesJumps (returnType file clause) := by
    cases clause with
    | none => exact pure _
    | some clause => exact type?_spares.after fun _ => pure _
  have made {scope : Scope} (f : Source.Function) (ps : List Var) (ty : Ty) :
      SparesJumps (makeFn file scope f ps ty) := by
    refine (fresh _).after fun fn => ?_
    cases scope.declare? f.name.text (.fn fn) with
    | none => exact reported (by decide) fun _ => pure _
    | some scope' => exact pure _
  induction fs generalizing scope with
  | nil => exact pure _
  | cons f fs ih =>
    have first : SparesJumps (declareFn file scope f) := by
      rw [declareFn_eq]
      exact (parameters_spares f.parameters).after fun ps => (returns _).after fun ty => made f ps ty
    exact first.after fun _ => ih.after fun _ => pure _

theorem entryFn?_spares {declared : List (Fn × Source.Function)} {hasGlobals : Bool} :
    SparesJumps (entryFn? c scope declared hasGlobals) := by
  unfold entryFn?
  split
  · exact (fresh _).after fun _ => pure _
  · cases (scope.lookupLocal? mainName).bind Symbol.fn? with
    | none =>
      dsimp only
      split
      · exact (fresh _).after fun _ => pure _
      · exact pure _
    | some main =>
      dsimp only
      cases declared.find? (·.1.id = main.id) with
      | none => exact pure _
      | some p =>
        have mixed : SparesJumps (do
            if hasGlobals then
              Bind.report c.file p.2.name.mark.range .cannotMixMainAndGlobalStatements []
            return some main) := by
          split
          · exact reported (by decide) fun _ => pure _
          · exact pure _
        dsimp only
        split
        · exact reported (by decide) fun _ => mixed
        · exact mixed

/-- A unit reports its jumps outside of loops once each: first those of its global statements, then
those of its functions. -/
theorem bindUnit_strays (scriptMode : Bool) (file : Option String) (history : List Declarations)
    (u : Source.Unit) (next : Nat) :
    (bindUnit scriptMode file history u next).1.declarations.diagnostics.items.filter
        Diagnostic.isStrayJump =
      (Source.Stmt.strayJumpsOf u.statements ++
          u.functions.flatMap (Source.Stmt.strayJumpsOf ·.body)).map
        (strayJump (file <|> u.file)) := by
  have heads : (headsPass file history u next).2.strays = [] := declareFns_spares _ _
  have statements : (globalsPass scriptMode file history u next).2.strays = _ :=
    globals_strays _ _
  have entry : (entryPass scriptMode file history u next).2.strays =
      (globalsPass scriptMode file history u next).2.strays ++ [] := entryFn?_spares _
  have bodies : (bodiesPass scriptMode file history u next).2.strays = _ :=
    functionBodies_strays _ _
  have sources : (headsPass file history u next).1.1.map Prod.snd = u.functions :=
    (declareFns_make _ _).1
  have functions : (headsPass file history u next).1.1.flatMap
      (Source.Stmt.strayJumpsOf ·.2.body) = u.functions.flatMap
        (Source.Stmt.strayJumpsOf ·.body) := by
    rw [← sources, List.flatMap_map]
  show (bodiesPass scriptMode file history u next).2.strays = _
  rw [bodies, entry, statements, heads, functions, List.append_nil, List.nil_append, List.map_append]
  rfl

end Binding

end ScriptLang
