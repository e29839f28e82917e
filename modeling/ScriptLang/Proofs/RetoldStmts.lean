import ScriptLang.Proofs.MisspeltUnits
import ScriptLang.Proofs.RetoldExpr

/-! A statement in which local variables have other names is bound to the same statement retold, if it
is bound without a mistake. What keeps the names in the two scopes apart is that the new name is one
that the statement does not use. -/

namespace ScriptLang

open Source (LocalRename)

def Stmt.Retold (s s' : Stmt) : Prop := s.rename .nameless = s'.rename .nameless

def Body.Retold (body body' : Body) : Prop := body.rename .nameless = body'.rename .nameless

theorem Stmt.Retold.cons {s s' : Stmt} {body body' : Body} (first : s.Retold s')
    (rest : body.Retold body') : Body.Retold (s :: body) (s' :: body') :=
  congrArg₂ List.cons first rest

theorem Body.Retold.block {body body' : Body} (retold : body.Retold body') :
    (Stmt.block body).Retold (.block body') := by
  unfold Stmt.Retold
  rw [Stmt.rename, Stmt.rename, Stmt.renameAll_eq_map, Stmt.renameAll_eq_map]
  exact congrArg Stmt.block retold

namespace Scope.Retold

variable {r : LocalRename} {isLocal active : Bool} {a b : Scope}

/-- A variable of the old name is declared under the new name. -/
theorem replace_picked (retold : a.Retold r true active b) {v v' : Var} (same : v.Retold v') :
    (a.replace r.old (.var v)).Retold r true true (b.replace r.new (.var v')) where
  lookup name other := by
    have before := retold.lookup name other
    rw [lookup?_replace, lookup?_replace]
    by_cases isOld : name = r.old
    · rw [isOld, LocalRename.text_old, if_pos rfl, if_pos rfl]
      exact .some (.var same)
    · rw [LocalRename.text_of_ne isOld] at before ⊢
      rwa [if_neg isOld, if_neg other]
  isVar _ := ⟨v, by rw [lookup?_replace, if_pos rfl]⟩
  new name notOld notNew free :=
    new_replace_iff.2 ⟨notNew, retold.new name notOld notNew (new_replace_iff.1 free).2⟩
  free isFree := absurd rfl (new_replace_iff.1 isFree).1
  inUnit impossible := by contradiction

/-- A variable of the old name keeps it, and means that name behind its declaration. -/
theorem replace_kept (retold : a.Retold r isLocal active b) {v v' : Var} (same : v.Retold v')
    (isNew : a.inner.contains r.old = false) (global : isLocal = false → v' = v) :
    (a.replace r.old (.var v)).Retold r isLocal false (b.replace r.old (.var v')) where
  lookup name other := by
    have before := retold.lookup name other
    rw [lookup?_replace, lookup?_replace, LocalRename.text_false]
    by_cases isOld : name = r.old
    · rw [if_pos isOld, if_pos isOld]
      exact .some (.var same)
    · rw [LocalRename.text_of_ne isOld] at before
      rwa [if_neg isOld, if_neg isOld]
  isVar impossible := by contradiction
  new name notOld notNew free :=
    new_replace_iff.2 ⟨notOld, retold.new name notOld notNew (new_replace_iff.1 free).2⟩
  free isFree := absurd rfl (new_replace_iff.1 isFree).1
  inUnit isUnit := by
    obtain ⟨_, vars, symbols⟩ := retold.inUnit isUnit
    refine ⟨rfl, ?_, fun name => ?_⟩
    · rw [vars_replace v isNew, vars_replace v' (retold.free isNew).1, vars, global isUnit]
    · rw [lookupLocal?_replace, lookupLocal?_replace]
      split
      · exact .some (.var same)
      · exact symbols name

/-- A variable of another name is declared. -/
theorem replace_other (retold : a.Retold r isLocal active b) {name : String} {v v' : Var}
    (same : v.Retold v') (notOld : name ≠ r.old) (notNew : name ≠ r.new)
    (isNew : a.inner.contains name = false) (global : isLocal = false → v' = v) :
    (a.replace name (.var v)).Retold r isLocal active (b.replace name (.var v')) where
  lookup asked other := by
    have before := retold.lookup asked other
    rw [lookup?_replace, lookup?_replace]
    by_cases isName : asked = name
    · rw [isName, LocalRename.text_of_ne notOld, if_pos rfl, if_pos rfl]
      exact .some (.var same)
    · have differs : r.text active asked ≠ name := by
        unfold LocalRename.text
        split
        · exact notNew.symm
        · exact isName
      rwa [if_neg isName, if_neg differs]
  isVar isActive := by
    rw [lookup?_replace, if_neg notOld.symm]
    exact retold.isVar isActive
  new asked askedOld askedNew free := by
    obtain ⟨differs, before⟩ := new_replace_iff.1 free
    exact new_replace_iff.2 ⟨differs, retold.new asked askedOld askedNew before⟩
  free isFree := by
    obtain ⟨freeOld, freeNew⟩ := retold.free (new_replace_iff.1 isFree).2
    exact ⟨new_replace_iff.2 ⟨notOld.symm, freeOld⟩, new_replace_iff.2 ⟨notNew.symm, freeNew⟩⟩
  inUnit isUnit := by
    obtain ⟨inactive, vars, symbols⟩ := retold.inUnit isUnit
    refine ⟨inactive, ?_, fun asked => ?_⟩
    · rw [vars_replace v isNew, vars_replace v' (retold.new name notOld notNew isNew), vars,
        global isUnit]
    · rw [lookupLocal?_replace, lookupLocal?_replace]
      split
      · exact .some (.var same)
      · exact symbols asked

/-- A name that keeps its meaning is free in the second scope if it is in the first one. -/
theorem free_of_free (retold : a.Retold r isLocal active b) {name : String} (notNew : name ≠ r.new)
    (isFree : a.inner.contains name = false) : b.inner.contains name = false := by
  by_cases isOld : name = r.old
  · subst isOld
    exact (retold.free isFree).1
  · exact retold.new name isOld notNew isFree

/-- A name that is free in the first scope is free in the second one, and behind its declaration
the names mean the same again. -/
theorem declare (retold : a.Retold r isLocal active b) {n : Source.Name} {v v' : Var}
    (other : n.text ≠ r.new) (isNew : a.inner.contains n.text = false) (same : v.Retold v')
    (global : isLocal = false → v' = v) :
    b.inner.contains (r.declared isLocal n).text = false ∧
      (a.replace n.text (.var v)).Retold r isLocal (r.activeBehind isLocal active n)
        (b.replace (r.declared isLocal n).text (.var v')) := by
  unfold LocalRename.declared LocalRename.name LocalRename.activeBehind
  dsimp only
  by_cases isOld : n.text = r.old
  · rw [isOld] at other isNew ⊢
    obtain ⟨freeOld, freeNew⟩ := retold.free isNew
    rw [if_pos rfl]
    cases picked : (isLocal && r.picks n.mark) with
    | true =>
      obtain ⟨rfl, _⟩ := Bool.and_eq_true_iff.1 picked
      rw [LocalRename.text_old]
      exact ⟨freeNew, retold.replace_picked same⟩
    | false =>
      rw [LocalRename.text_false]
      exact ⟨freeOld, retold.replace_kept same isNew global⟩
  · rw [LocalRename.text_of_ne isOld, if_neg isOld]
    exact ⟨retold.new _ isOld other isNew, retold.replace_other same isOld other isNew global⟩

end Scope.Retold

/-- What is fixed for two statements is the same, or retold. -/
structure BindContext.Retold (c c' : BindContext) : Prop where
  file : c'.file = c.file
  scriptMode : c'.scriptMode = c.scriptMode
  function : Option.Rel Fn.Retold c.function c'.function
  loops : c'.loops = c.loops

namespace Binding

open Source (Token Name TypeClause)

variable {given : Prop} {e e' : Expr} {r : LocalRename} {isLocal active : Bool} {a b : Scope}
  {c c' : BindContext}

/-- Results of binding: the item is retold, and behind it the names mean the same. -/
def RetoldBehind (r : LocalRename) (isLocal active : Bool) {α : Type} (retold : α → α → Prop)
    (p p' : α × Scope) : Prop := retold p.1 p'.1 ∧ p.2.Retold r isLocal active p'.2

theorem clause_same (type : Option TypeClause) : TypeClause.Same type (type.map r.clause) := by
  cases type with
  | none => rfl
  | some clause => exact congrArg some (LocalRename.text_name_false clause.name)

theorem declareVar_retold (context : c.Retold c') {n : Name} {readOnly : Bool} {t t' : Ty}
    {constant constant' : Option Value} (other : n.text ≠ r.new)
    (scopes : given → a.Retold r isLocal active b)
    (known : given → t' = t ∧ constant' = constant) :
    Reports given [] (declareVar c a n readOnly t constant)
      (declareVar c' b (r.declared isLocal n) readOnly t' constant')
      (RetoldBehind r isLocal (r.activeBehind isLocal active n) Var.Retold) := by
  let kind : VarKind := if c.function.isNone then .globalVar else .localVar
  have isNone : c'.function.isNone = c.function.isNone := by
    have related := context.function
    generalize c.function = inC at related ⊢
    generalize c'.function = inC' at related ⊢
    cases related <;> rfl
  have made : Reports given [] (Bind.fresh (Var.create n.text readOnly t kind constant))
      (Bind.fresh (Var.create (r.declared isLocal n).text readOnly t' kind constant'))
      fun v v' => v.Retold v' ∧ (isLocal = false → v' = v) := by
    refine .fresh fun next holds => ⟨rfl, ?_⟩
    obtain ⟨rfl, rfl⟩ := known holds
    refine ⟨rfl, ?_⟩
    rintro rfl
    rw [LocalRename.declared, Bool.false_and, LocalRename.text_name_false]
  unfold declareVar
  rw [isNone]
  refine made.bindQuiet fun v v' => .of_given (P := fun _ => True) ?_ fun holds => ?_
  · split
    · exact .pure fun _ => trivial
    · exact .refused rfl
  · unfold Scope.declare?
    cases taken : a.inner.contains n.text with
    | true => exact .of_refused rfl
    | false =>
      obtain ⟨free, behind⟩ := (scopes holds.1).declare other taken holds.2.1 holds.2.2
      rw [free]
      exact .pure fun _ => ⟨holds.2.1, behind⟩

theorem declaration_retold (context : c.Retold c') {keyword keyword' : Token} {n : Name}
    {type : Option TypeClause} {e : Source.Expr} (kind : keyword'.kind = keyword.kind)
    (other : n.text ≠ r.new) (others : ∀ name ∈ e.names, name ≠ r.new)
    (scopes : given → a.Retold r isLocal active b) :
    Reports given [] (declaration c a keyword n type e)
      (declaration c' b keyword' (r.declared isLocal n) (type.map r.clause) (r.expr active e))
      (RetoldBehind r isLocal (r.activeBehind isLocal active n) Stmt.Retold) := by
  rw [declaration_eq, declaration_eq, kind, context.file]
  refine (clauseType_reports (clause_same type)).behindQuiet fun t? t?' => ?_
  refine (value_retold others fun holds => scopes holds.1).bindQuiet fun v v' => ?_
  have target (holds : (given ∧ t?' = t? ∧ (type ≠ none → t? ≠ none)) ∧ v.Retold v') :
      t?'.getD v'.ty = t?.getD v.ty := by rw [holds.1.2.1, holds.2.ty]
  refine (convert_retold And.right target).bindQuiet fun d d' => ?_
  refine (declareVar_retold context other (fun holds => scopes holds.1.1.1)
    fun holds => ⟨target holds.1, holds.2.constant?⟩).bindQuiet fun p p' => ?_
  exact .pure fun holds => ⟨congrArg₂ Stmt.declare holds.2.1 holds.1.2, holds.2.2⟩

theorem loopRange_retold {file : Option String} {e : Source.Expr}
    (others : ∀ name ∈ e.names, name ≠ r.new)
    (scopes : given → a.Retold r isLocal active b) :
    Reports given [] (loopRange file a e) (loopRange file b (r.expr active e)) Expr.Retold := by
  cases e with
  | range m lower upper =>
    obtain ⟨inLower, inUpper⟩ := List.forall_mem_append.1 others
    have sound (l : Expr) : Sound False (do
        return Expr.range l (← valueOf file a .int upper)) fun _ => True :=
      (valueOf_sound False.elim (by decide) upper).bind fun _ => .pure fun _ => trivial
    refine (value_retold inLower scopes).bindQuiet fun l l' => ?_
    dsimp only
    split
    · exact .of_reported rfl fun _ => sound _
    next isInt =>
      refine .of_given (sound l) fun holds => ?_
      have isInt' : ¬(!l'.isError && l'.ty != .int) = true := by
        rwa [holds.2.isError, holds.2.ty]
      rw [if_neg isInt', pure_bind, pure_bind]
      refine (valueOf_retold inUpper fun _ => scopes holds.1).bindQuiet fun u u' => ?_
      exact .pure fun bounds => congrArg₂ Expr.range holds.2 bounds.2
  | _ => exact .of_refused rfl

theorem jump_retold (context : c.Retold c') {keyword keyword' : Token}
    (kind : keyword'.kind = keyword.kind) :
    Reports given [] (jump c keyword) (jump c' keyword') Stmt.Retold := by
  unfold jump
  rw [context.loops, kind]
  split
  · exact .of_refused rfl
  · exact .pure fun _ => rfl

theorem returnStmt_retold (context : c.Retold c') {keyword keyword' : TextRange} :
    Reports given [] (returnStmt c keyword none) (returnStmt c' keyword' none) Stmt.Retold := by
  have related := context.function
  unfold returnStmt
  generalize c.function = inC at related ⊢
  generalize c'.function = inC' at related ⊢
  cases related with
  | none => exact .of_refused rfl
  | some same =>
    dsimp only
    rw [same.returns]
    split
    · exact .of_refused rfl
    · exact .pure fun _ => rfl

theorem returnStmt_retold_value (context : c.Retold c')
    {keyword keyword' range range' : TextRange} (retold : given → e.Retold e') :
    Reports given [] (returnStmt c keyword (some (range, e)))
      (returnStmt c' keyword' (some (range', e'))) Stmt.Retold := by
  have related := context.function
  unfold returnStmt
  generalize c.function = inC at related ⊢
  generalize c'.function = inC' at related ⊢
  cases related with
  | none => exact .of_refused rfl
  | some same =>
    dsimp only
    rw [same.returns]
    split
    · exact .of_refused rfl
    · refine (convert_retold retold fun _ => rfl).bindQuiet fun d d' => ?_
      exact .pure fun holds => congrArg (fun e => Stmt.ret (some e)) holds.2

theorem enter_retold (context : c.Retold c') (labels : LoopLabels) :
    (BindContext.enter c labels).Retold (BindContext.enter c' labels) :=
  { context with loops := congrArg (List.cons labels) context.loops }

mutual

/-- A statement with other names is bound to the same statement retold, and behind it the names mean
the same. -/
theorem stmt_retold {c c' : BindContext} {isLocal active : Bool} {a b : Scope} {given : Prop}
    (context : c.Retold c') (isGlobal : Bool) (s : Source.Stmt)
    (others : ∀ name ∈ s.names, name ≠ r.new) (declares : ∀ name ∈ s.declares, name ≠ r.new)
    (scopes : given → a.Retold r isLocal active b) :
    Reports given [] (stmt c isGlobal a s) (stmt c' isGlobal b (r.stmt isLocal active s))
      (RetoldBehind r isLocal (r.active isLocal active s) Stmt.Retold) := by
  cases s with
  | block m body =>
    refine (stmts_retold context body others declares fun holds => (scopes holds).push).bindQuiet
      fun p p' => ?_
    exact .pure fun holds => ⟨holds.2.block, scopes holds.1⟩
  | declare m keyword n type e =>
    exact declaration_retold context rfl (declares _ List.mem_cons_self) others scopes
  | ifThen m condition t =>
    obtain ⟨inCondition, inThen⟩ := List.forall_mem_append.1 others
    unfold stmt LocalRename.stmt
    rw [context.file]
    refine (valueOf_retold inCondition scopes).bindQuiet fun e e' => ?_
    refine (stmt_retold context false t inThen declares fun holds => scopes holds.1).bindQuiet
      fun p p' => ?_
    exact .pure fun holds => ⟨congrArg₂ Stmt.ifThen holds.1.2 holds.2.1, holds.2.2⟩
  | ifElse m condition t e =>
    obtain ⟨inCondition, inBodies⟩ := List.forall_mem_append.1 others
    obtain ⟨inThen, inElse⟩ := List.forall_mem_append.1 inBodies
    obtain ⟨byThen, byElse⟩ := List.forall_mem_append.1 declares
    unfold stmt LocalRename.stmt
    rw [context.file]
    refine (valueOf_retold inCondition scopes).bindQuiet fun d d' => ?_
    refine (stmt_retold context false t inThen byThen fun holds => scopes holds.1).bindQuiet
      fun p p' => ?_
    refine (stmt_retold context false e inElse byElse fun holds => holds.2.2).bindQuiet
      fun q q' => ?_
    refine .pure fun holds => ⟨?_, holds.2.2⟩
    unfold Stmt.Retold
    rw [Stmt.rename, Stmt.rename, holds.1.1.2, holds.1.2.1, holds.2.1]
  | whileDo m condition body =>
    obtain ⟨inCondition, inBody⟩ := List.forall_mem_append.1 others
    unfold stmt LocalRename.stmt
    rw [context.file]
    refine (valueOf_retold inCondition scopes).bindQuiet fun e e' => ?_
    refine .freshSame newLoop fun labels => ?_
    refine (stmt_retold (enter_retold context labels) false body inBody declares
      fun holds => scopes holds.1).bindQuiet fun p p' => ?_
    exact .pure fun holds =>
      ⟨congrArg₂ (Stmt.whileDo · · (labels.rename .nameless)) holds.1.2 holds.2.1, holds.2.2⟩
  | doWhile m body condition =>
    obtain ⟨inBody, inCondition⟩ := List.forall_mem_append.1 others
    unfold stmt LocalRename.stmt
    rw [context.file]
    refine .freshSame newLoop fun labels => ?_
    refine (stmt_retold (enter_retold context labels) false body inBody declares scopes).bindQuiet
      fun p p' => ?_
    refine (valueOf_retold inCondition fun holds => holds.2.2).bindQuiet fun e e' => ?_
    exact .pure fun holds =>
      ⟨congrArg₂ (Stmt.doWhile · · (labels.rename .nameless)) holds.1.2.1 holds.2, holds.1.2.2⟩
  | forIn m n range body =>
    obtain ⟨inRange, inBody⟩ := List.forall_mem_append.1 others
    obtain ⟨other, byBody⟩ := List.forall_mem_cons.1 declares
    unfold stmt LocalRename.stmt
    rw [context.file]
    refine (loopRange_retold inRange scopes).bindQuiet fun e e' => ?_
    refine (declareVar_retold context other (fun holds => (scopes holds.1).push)
      fun _ => ⟨rfl, rfl⟩).bindQuiet fun p p' => ?_
    refine .freshSame newLoop fun labels => ?_
    refine (stmt_retold (enter_retold context labels) false body inBody byBody
      fun holds => holds.2.2).bindQuiet fun q q' => ?_
    refine .pure fun holds => ⟨?_, scopes holds.1.1.1⟩
    unfold Stmt.Retold
    rw [Stmt.rename, Stmt.rename, holds.1.1.2, holds.1.2.1, holds.2.1]
  | jump keyword =>
    have jumps : Reports given [] (jump c keyword) (jump c' (r.token keyword)) Stmt.Retold :=
      jump_retold context rfl
    refine jumps.bindQuiet fun s s' => ?_
    exact .pure fun holds => ⟨holds.2, scopes holds.1⟩
  | ret m keyword value =>
    cases value with
    | none =>
      refine (returnStmt_retold context).bindQuiet fun s s' => ?_
      exact .pure fun holds => ⟨holds.2, scopes holds.1⟩
    | some e =>
      refine (value_retold others scopes).bindQuiet fun d d' => ?_
      refine (returnStmt_retold_value context And.right).bindQuiet fun s s' => ?_
      exact .pure fun holds => ⟨holds.2, scopes holds.1.1⟩
  | expr m e =>
    refine (expr_retold e others scopes).bindQuiet fun d d' => ?_
    dsimp only
    rw [context.scriptMode]
    split
    · exact .of_refused rfl
    next stands =>
      refine .of_given (P := fun _ => True) (.pure fun _ => trivial) fun holds => ?_
      rw [if_neg (by rwa [holds.2.standsAlone])]
      exact .pure fun _ => ⟨congrArg Stmt.expr holds.2, scopes holds.1⟩

theorem stmts_retold {c c' : BindContext} {active : Bool} {a b : Scope} {given : Prop}
    (context : c.Retold c') (ss : List Source.Stmt)
    (others : ∀ name ∈ Source.Stmt.namesOf ss, name ≠ r.new)
    (declares : ∀ name ∈ Source.Stmt.declaresOf ss, name ≠ r.new)
    (scopes : given → a.Retold r true active b) :
    Reports given [] (stmts c a ss) (stmts c' b (r.stmts active ss))
      fun p p' => p.1.Retold p'.1 := by
  cases ss with
  | nil => exact .pure fun _ => rfl
  | cons s ss =>
    obtain ⟨inFirst, inRest⟩ := List.forall_mem_append.1 others
    obtain ⟨byFirst, byRest⟩ := List.forall_mem_append.1 declares
    refine (stmt_retold context false s inFirst byFirst scopes).bindQuiet fun p p' => ?_
    refine (stmts_retold context ss inRest byRest fun holds => holds.2.2).bindQuiet fun q q' => ?_
    exact .pure fun holds => holds.1.2.1.cons holds.2

end

end Binding

end ScriptLang
