import ScriptLang.Proofs.BindingConstants

/-! Each declaration and each `for` loop has a variable of its own, and so has each parameter.
Those that functions declare are local, and only functions with a name are called. -/

namespace ScriptLang

namespace Stmt

mutual

def introduced : Stmt → List Var
  | block body => introducedOf body
  | declare v _ => [v]
  | ifThen _ t => t.introduced
  | ifElse _ t e => t.introduced ++ e.introduced
  | whileDo _ body _ | doWhile body _ _ => body.introduced
  | forIn v _ body _ => v :: body.introduced
  | label _ | goto _ | gotoIf _ _ _ | ret _ | expr _ => []

def introducedOf : List Stmt → List Var
  | [] => []
  | s :: ss => s.introduced ++ introducedOf ss

end

mutual

def declared : Stmt → List Var
  | block body => declaredOf body
  | declare v _ => [v]
  | ifThen _ t => t.declared
  | ifElse _ t e => t.declared ++ e.declared
  | whileDo _ body _ | doWhile body _ _ | forIn _ _ body _ => body.declared
  | label _ | goto _ | gotoIf _ _ _ | ret _ | expr _ => []

def declaredOf : List Stmt → List Var
  | [] => []
  | s :: ss => s.declared ++ declaredOf ss

end

mutual

theorem declared_subset_introduced (s : Stmt) : s.declared ⊆ s.introduced := by
  cases s with
  | block body => exact declaredOf_subset_introducedOf body
  | ifThen c t => exact declared_subset_introduced t
  | ifElse c t e =>
    exact List.append_subset.2
      ⟨List.subset_append_of_subset_left _ (declared_subset_introduced t),
        List.subset_append_of_subset_right _ (declared_subset_introduced e)⟩
  | whileDo c body labels => exact declared_subset_introduced body
  | doWhile body c labels => exact declared_subset_introduced body
  | forIn v range body labels =>
    exact List.subset_cons_of_subset v (declared_subset_introduced body)
  | declare _ _ | label _ | goto _ | gotoIf _ _ _ | ret _ | expr _ => exact List.Subset.refl _

theorem declaredOf_subset_introducedOf (ss : List Stmt) : declaredOf ss ⊆ introducedOf ss := by
  cases ss with
  | nil => exact List.Subset.refl _
  | cons s ss =>
    exact List.append_subset.2
      ⟨List.subset_append_of_subset_left _ (declared_subset_introduced s),
        List.subset_append_of_subset_right _ (declaredOf_subset_introducedOf ss)⟩

end

mutual

theorem loopVars_subset_introduced (s : Stmt) : s.loopVars ⊆ s.introduced := by
  cases s with
  | block body => exact loopVarsOf_subset_introducedOf body
  | ifThen c t => exact loopVars_subset_introduced t
  | ifElse c t e =>
    exact List.append_subset.2
      ⟨List.subset_append_of_subset_left _ (loopVars_subset_introduced t),
        List.subset_append_of_subset_right _ (loopVars_subset_introduced e)⟩
  | whileDo c body labels => exact loopVars_subset_introduced body
  | doWhile body c labels => exact loopVars_subset_introduced body
  | forIn v range body labels => exact List.cons_subset_cons v (loopVars_subset_introduced body)
  | declare _ _ | label _ | goto _ | gotoIf _ _ _ | ret _ | expr _ => exact List.nil_subset _

theorem loopVarsOf_subset_introducedOf (ss : List Stmt) : loopVarsOf ss ⊆ introducedOf ss := by
  cases ss with
  | nil => exact List.Subset.refl _
  | cons s ss =>
    exact List.append_subset.2
      ⟨List.subset_append_of_subset_left _ (loopVars_subset_introduced s),
        List.subset_append_of_subset_right _ (loopVarsOf_subset_introducedOf ss)⟩

end

mutual

theorem introduced_subset_vars (s : Stmt) : s.introduced ⊆ s.vars := by
  cases s with
  | block body => exact introducedOf_subset_varsOf body
  | declare v e => exact List.cons_subset_cons v (List.nil_subset _)
  | ifThen c t => exact List.subset_append_of_subset_right _ (introduced_subset_vars t)
  | ifElse c t e =>
    exact List.append_subset.2
      ⟨List.subset_append_of_subset_left _
          (List.subset_append_of_subset_right _ (introduced_subset_vars t)),
        List.subset_append_of_subset_right _ (introduced_subset_vars e)⟩
  | whileDo c body labels => exact List.subset_append_of_subset_right _ (introduced_subset_vars body)
  | doWhile body c labels => exact List.subset_append_of_subset_right _ (introduced_subset_vars body)
  | forIn v range body labels =>
    exact List.cons_subset_cons v
      (List.subset_append_of_subset_right _ (introduced_subset_vars body))
  | label _ | goto _ | gotoIf _ _ _ | ret _ | expr _ => exact List.nil_subset _

theorem introducedOf_subset_varsOf (ss : List Stmt) : introducedOf ss ⊆ varsOf ss := by
  cases ss with
  | nil => exact List.Subset.refl _
  | cons s ss =>
    exact List.append_subset.2
      ⟨List.subset_append_of_subset_left _ (introduced_subset_vars s),
        List.subset_append_of_subset_right _ (introducedOf_subset_varsOf ss)⟩

end

end Stmt

/-- A builtin, or a function with a declaration: one that code can call by its name. -/
def Fn.Declared (f : Fn) : Prop := f.builtin.isSome = true ∨ f.declaration.isSome = true

namespace Binding

open Source (Token Name TypeClause)

variable {c : BindContext} {scope : Scope}

/-- What is known of the variables that a statement brings along, where `isGlobal` says that it
stands outside of functions. -/
structure Introduces (isGlobal : Bool) (introduced loopVars : List Var) : Prop where
  kind : ∀ v ∈ introduced, v.isGlobal = isGlobal
  loops : ∀ v ∈ loopVars, v.readOnly = true

namespace Introduces

variable {isGlobal : Bool} {vs ws loopVars loopVars' : List Var}

theorem none : Introduces isGlobal [] [] := ⟨List.forall_mem_nil _, List.forall_mem_nil _⟩

theorem append (first : Introduces isGlobal vs loopVars) (second : Introduces isGlobal ws loopVars') :
    Introduces isGlobal (vs ++ ws) (loopVars ++ loopVars') :=
  ⟨List.forall_mem_append.2 ⟨first.kind, second.kind⟩,
    List.forall_mem_append.2 ⟨first.loops, second.loops⟩⟩

end Introduces

theorem declareVar_yields_kind {name : Name} {readOnly : Bool} {ty : Ty} {constant : Option Value} :
    Yields (declareVar c scope name readOnly ty constant) fun declared =>
      declared.1.isGlobal = c.function.isNone ∧ declared.1.readOnly = readOnly := by
  unfold declareVar
  have made : Yields (Bind.fresh (Var.create name.text readOnly ty
      (if c.function.isNone then .globalVar else .localVar) constant)) fun v =>
        v.isGlobal = c.function.isNone ∧ v.readOnly = readOnly := by
    apply Yields.fresh
    intro n
    constructor
    · cases function : c.function.isNone <;> rfl
    · cases readOnly <;> rfl
  refine made.bind fun v known => ?_
  cases scope.declare? name.text (.var v) with
  | none => exact .after fun _ => .pure known
  | some scope' => exact .pure known

theorem declaration_introduces {keyword : Token} {name : Name} {type : Option TypeClause}
    {source : Source.Expr} :
    Yields (declaration c scope keyword name type source) fun b =>
      Introduces c.function.isNone b.1.introduced b.1.loopVars := by
  unfold declaration
  extract_lets rest
  have restYields (declared : Option Ty) : Yields (rest declared) fun b =>
      Introduces c.function.isNone b.1.introduced b.1.loopVars := by
    apply Yields.after
    intro bound
    apply Yields.after
    intro converted
    refine declareVar_yields_kind.bind fun declared known => .pure ?_
    exact ⟨List.forall_mem_singleton.2 known.1, List.forall_mem_nil _⟩
  cases type with
  | none => exact .after fun declared => restYields declared
  | some clause => exact .after fun declared => restYields declared

theorem jump_introduces {keyword : Token} {isGlobal : Bool} :
    Yields (jump c keyword) fun b => Introduces isGlobal b.introduced b.loopVars := by
  unfold jump
  cases c.loops with
  | nil => exact .after fun _ => .pure .none
  | cons labels loops => exact .pure .none

theorem returnStmt_introduces {keyword : TextRange} {bound : Option (TextRange × Expr)}
    {isGlobal : Bool} :
    Yields (returnStmt c keyword bound) fun b => Introduces isGlobal b.introduced b.loopVars := by
  intro s
  obtain ⟨value, equal⟩ := (returnStmt_isRet fun _ => True).holds s
  rw [equal]
  exact .none

mutual

theorem stmt_introduces {c : BindContext} {scope : Scope} (isGlobal : Bool) (s : Source.Stmt) :
    Yields (stmt c isGlobal scope s) fun b =>
      Introduces c.function.isNone b.1.introduced b.1.loopVars := by
  cases s with
  | block m body => exact (stmts_introduces body).bind fun bound known => .pure known
  | declare m keyword name type source => exact declaration_introduces
  | ifThen m condition thenBody =>
    apply Yields.after
    exact fun condition => (stmt_introduces false thenBody).bind fun bound known => .pure known
  | ifElse m condition thenBody elseBody =>
    apply Yields.after
    intro condition
    refine (stmt_introduces false thenBody).bind fun bound known => ?_
    exact (stmt_introduces false elseBody).bind fun bound' known' => .pure (known.append known')
  | whileDo m condition body =>
    apply Yields.after
    intro condition
    apply Yields.after
    intro labels
    have inner : Yields (stmt (BindContext.enter c labels) false scope body) _ :=
      stmt_introduces false body
    exact inner.bind fun bound known => .pure known
  | doWhile m body condition =>
    apply Yields.after
    intro labels
    have inner : Yields (stmt (BindContext.enter c labels) false scope body) _ :=
      stmt_introduces false body
    exact inner.bind fun bound known => .after fun condition => .pure known
  | forIn m name range body =>
    apply Yields.after
    intro range
    refine declareVar_yields_kind.bind fun declared known => ?_
    apply Yields.after
    intro labels
    have inner : Yields (stmt (BindContext.enter c labels) false declared.2 body) _ :=
      stmt_introduces false body
    refine inner.bind fun bound knownBody => .pure ?_
    exact ⟨List.forall_mem_cons.2 ⟨known.1, knownBody.kind⟩,
      List.forall_mem_cons.2 ⟨known.2, knownBody.loops⟩⟩
  | jump keyword => exact jump_introduces.bind fun bound known => .pure known
  | ret m keyword value =>
    cases value with
    | none => exact returnStmt_introduces.bind fun bound known => .pure known
    | some e =>
      apply Yields.after
      exact fun bound => returnStmt_introduces.bind fun bound known => .pure known
  | expr m e =>
    apply Yields.after
    intro bound
    dsimp only
    split
    · exact .after fun _ => .pure .none
    · exact .pure .none

theorem stmts_introduces {c : BindContext} {scope : Scope} (ss : List Source.Stmt) :
    Yields (stmts c scope ss) fun b =>
      Introduces c.function.isNone (Stmt.introducedOf b.1) (Stmt.loopVarsOf b.1) := by
  cases ss with
  | nil => exact .pure .none
  | cons s ss =>
    refine (stmt_introduces false s).bind fun bound known => ?_
    exact (stmts_introduces ss).bind fun rest knownRest => .pure (known.append knownRest)

end

theorem globals_introduces (ss : List Source.Stmt) :
    Yields (globals c scope ss) fun b =>
      Introduces c.function.isNone (Stmt.introducedOf b.1) (Stmt.loopVarsOf b.1) := by
  induction ss generalizing scope with
  | nil => exact .pure .none
  | cons s ss ih =>
    refine (stmt_introduces true s).bind fun bound known => ?_
    exact ih.bind fun rest knownRest => .pure (known.append knownRest)

theorem functionBodies_introduces (declared : List (Fn × Source.Function)) :
    Yields (functionBodies c scope declared) fun bodies =>
      ∀ p ∈ bodies, Introduces false (Stmt.introducedOf p.2) (Stmt.loopVarsOf p.2) := by
  induction declared with
  | nil => exact .pure (List.forall_mem_nil _)
  | cons p declared ih =>
    have body : Yields (functionBody c scope p.1 p.2) fun body =>
        Introduces false (Stmt.introducedOf body) (Stmt.loopVarsOf body) :=
      (stmts_introduces p.2.body).bind fun bound known => .pure known
    refine body.bind fun body known => ?_
    exact ih.bind fun bodies knownRest => .pure (List.forall_mem_cons.2 ⟨known, knownRest⟩)

theorem parameters_readOnly {file : Option String} {done : List Var}
    (readOnly : ∀ v ∈ done, v.readOnly = true) (ps : List Source.Parameter) :
    Yields (parameters file done ps) fun vs => ∀ v ∈ vs, v.readOnly = true := by
  induction ps generalizing done with
  | nil => exact .pure readOnly
  | cons p ps ih =>
    unfold parameters
    apply Yields.after
    intro t?
    dsimp only
    split
    · exact .after fun _ => ih readOnly
    · have made : Yields (Bind.fresh (Var.createParameter p.name.text (t?.getD .error) done.length))
          fun v => v.readOnly = true := .fresh fun n => rfl
      refine made.bind fun v isReadOnly => ih ?_
      exact List.forall_mem_append.2 ⟨readOnly, List.forall_mem_singleton.2 isReadOnly⟩

theorem makeFn_parameters {file : Option String} {f : Source.Function} {ps : List Var}
    (readOnly : ∀ v ∈ ps, v.readOnly = true) (returns : Ty) :
    Yields (do
        let fn ← Bind.fresh (Fn.create f.name.text ps returns (some f.mark.id))
        match scope.declare? f.name.text (.fn fn) with
        | some scope => return (fn, scope)
        | none =>
          Bind.report file f.name.mark.range .symbolAlreadyDeclared [f.name.text]
          return (fn, scope)) fun r => ∀ v ∈ r.1.parameters, v.readOnly = true := by
  have made : Yields (Bind.fresh (Fn.create f.name.text ps returns (some f.mark.id))) fun fn =>
      ∀ v ∈ fn.parameters, v.readOnly = true := .fresh fun n => readOnly
  refine made.bind fun fn readOnly => ?_
  cases scope.declare? f.name.text (.fn fn) with
  | none => exact .after fun _ => .pure readOnly
  | some scope' => exact .pure readOnly

theorem declareFn_parameters {file : Option String} (f : Source.Function) :
    Yields (declareFn file scope f) fun r => ∀ v ∈ r.1.parameters, v.readOnly = true := by
  unfold declareFn
  refine (parameters_readOnly (List.forall_mem_nil _) f.parameters).bind fun ps readOnly => ?_
  cases f.returns with
  | none => exact .after fun returns => makeFn_parameters readOnly returns
  | some clause => exact .after fun t? => .after fun returns => makeFn_parameters readOnly returns

theorem declareFns_parameters {file : Option String} (fs : List Source.Function) :
    Yields (declareFns file scope fs) fun r =>
      ∀ f ∈ r.1.map Prod.fst, ∀ v ∈ f.parameters, v.readOnly = true := by
  induction fs generalizing scope with
  | nil => exact .pure (List.forall_mem_nil _)
  | cons f fs ih =>
    refine (declareFn_parameters f).bind fun r readOnly => ?_
    exact ih.bind fun rest readOnlyRest => .pure (List.forall_mem_cons.2 ⟨readOnly, readOnlyRest⟩)

structure UnitDeclares (bound : BoundUnit) : Prop where
  calls : ∀ p ∈ bound.bodies, ∀ f ∈ Stmt.callsOf p.2, f.Declared
  fns : ∀ f ∈ bound.declarations.fns, f.Declared
  parameters : ∀ p ∈ bound.bodies, ∀ v ∈ p.1.parameters, v.readOnly = true
  loops : ∀ p ∈ bound.bodies, ∀ v ∈ Stmt.loopVarsOf p.2, v.readOnly = true
  locals : ∀ p ∈ bound.bodies, p.1.declaration.isSome = true →
    ∀ v ∈ Stmt.introducedOf p.2, v.isGlobal = false

theorem Tracks.yields {α ι : Type} {id : ι → Nat} {S : ι → Prop} {x : Bind α} {P : α → Prop}
    {T : α → ι → Prop} (tracks : Tracks id S x P T) : Yields x P := tracks.holds

theorem Yields.and {α : Type} {x : Bind α} {P Q : α → Prop} (first : Yields x P)
    (second : Yields x Q) : Yields x fun a => P a ∧ Q a := fun s => ⟨first s, second s⟩

/-- An entry that gets a body of its own is none of the declared functions. -/
theorem not_declared {bodies : List (Fn × Body)} {fns : List Fn} {e : Fn}
    (sameKeys : bodies.map Prod.fst = fns) (among : ∀ {f}, f ∈ scope.fns → f ∈ fns)
    (new : bodies.any (·.1.id = e.id) = false) : e ∉ scope.fns := by
  intro member
  have key := among member
  rw [← sameKeys] at key
  obtain ⟨p, within, same⟩ := List.mem_map.1 key
  have isOld : bodies.any (·.1.id = e.id) = true :=
    List.any_eq_true.2 ⟨p, within, decide_eq_true (congrArg Fn.id same)⟩
  rw [isOld] at new
  contradiction

theorem unit_declares {scriptMode : Bool} {file : Option String} {history : List Declarations}
    {u : Source.Unit} (fns : ∀ d ∈ history, ∀ f ∈ d.fns, f.Declared) :
    Yields (unit scriptMode file history u) UnitDeclares := by
  unfold unit
  have builtins : ∀ f : Fn, f.builtin.isSome = true → f.Declared := fun _ => .inl
  refine (Tracks.yields (rootScope_tracks (S := fun _ => True) builtins)).bind fun root rootHolds => ?_
  have starts := historyScope_holds (S := fun _ => True) rootHolds (fun _ _ _ _ => trivial) fns
  dsimp only
  refine ((Tracks.yields (declareFns_tracks (S := fun _ => True) u.functions)).and
    (declareFns_parameters u.functions)).bind fun r known => ?_
  obtain ⟨declaredFns, scope⟩ := r
  obtain ⟨declared, parameters⟩ := known
  have isDeclared {f : Fn} (member : f ∈ declaredFns.map Prod.fst) : f.declaration.isSome = true :=
    (declared.shape f member).2.1
  have starts' := declared.holds _ starts fun f member => Or.inr (isDeclared member)
  have noFns : ∀ f ∈ scope.fns, f ∈ declaredFns.map Prod.fst := fun f member =>
    (declared.among f member).resolve_left List.not_mem_nil
  dsimp only
  refine ((Tracks.yields (globals_tracks starts' u.statements)).and
    (globals_introduces u.statements)).bind fun bound known => ?_
  obtain ⟨statements, scope'⟩ := bound
  obtain ⟨tracked, introduces⟩ := known
  have scopeFns {f : Fn} (member : f ∈ scope'.fns) : f ∈ declaredFns.map Prod.fst := by
    have sameFns : scope'.fns = scope.fns := tracked.scope.same
    exact noFns f (sameFns ▸ member)
  dsimp only
  refine (Tracks.yields (entryFn?_gives fun _ => True)).bind fun entry isEntry => ?_
  have behind := holds_behind (S := fun _ => True) (T := fun _ => True) tracked.scope
    fun _ _ => .inl trivial
  refine ((Tracks.yields (functionBodies_tracks behind declaredFns fun _ _ _ _ => .inl trivial)).and
    (functionBodies_introduces declaredFns)).bind fun bodies known => ?_
  obtain ⟨⟨sameKeys, trackedBodies⟩, introducesBodies⟩ := known
  apply Yields.after
  intro state
  have keyDeclared {p : Fn × Body} (member : p ∈ bodies) : p.1 ∈ declaredFns.map Prod.fst :=
    sameKeys ▸ List.mem_map_of_mem member
  have made {e : Fn} (given : entry = some e) (new : bodies.any (·.1.id = e.id) = false) :
      MadeForGlobals e := (isEntry e given).resolve_right (not_declared sameKeys scopeFns new)
  refine .pure ⟨?_, fun f member => .inr (isDeclared (scopeFns member)), ?_, ?_, ?_⟩
  all_goals
    intro p member
    rcases mem_addEntry member with member | ⟨e, given, rfl, new⟩
  · exact (trackedBodies p member).2
  · exact tracked.calls
  · exact parameters p.1 (keyDeclared member)
  · simp [(made given new).parameters]
  · exact (introducesBodies p member).loops
  · exact introduces.loops
  · exact fun _ => (introducesBodies p member).kind
  · intro isDeclared
    rw [(made given new).declaration] at isDeclared
    contradiction

end Binding

theorem bindUnit_declares {history : List Declarations}
    (fns : ∀ d ∈ history, ∀ f ∈ d.fns, f.Declared) (scriptMode : Bool) (file : Option String)
    (u : Source.Unit) (next : Nat) :
    Binding.UnitDeclares (bindUnit scriptMode file history u next).1 :=
  Binding.unit_declares fns ⟨next, .empty⟩

end ScriptLang
