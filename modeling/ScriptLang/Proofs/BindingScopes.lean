import ScriptLang.Proofs.BindingDeclarations

/-! Bound code mentions variables only where they are in scope. A declaration puts its variable in
the scope of what follows, and so does a statement around it that has no scope of its own,
whether or not the declaration has run by then. -/

namespace ScriptLang

namespace Stmt

/-- The variables that a statement puts in the scope of what follows it. -/
def exports : Stmt → List Var
  | declare v _ => [v]
  | ifThen _ t => t.exports
  | ifElse _ t e => t.exports ++ e.exports
  | whileDo _ body _ | doWhile body _ _ => body.exports
  | block _ | forIn _ _ _ _ | label _ | goto _ | gotoIf _ _ _ | ret _ | expr _ => []

/-- Those of them that are declared whenever control comes to what follows. -/
def settled : Stmt → List Var
  | declare v _ => [v]
  | doWhile body _ _ => body.settled
  | _ => []

mutual

/-- The variables declared without a block around them in a branch of an `if` or in the body of
a `while`. They are in scope where their declaration may not have run. -/
def bare : Stmt → List Var
  | block body => bareOf body
  | ifThen _ t => t.exports ++ t.bare
  | ifElse _ t e => t.exports ++ t.bare ++ (e.exports ++ e.bare)
  | whileDo _ body _ => body.exports ++ body.bare
  | doWhile body _ _ | forIn _ _ body _ => body.bare
  | declare _ _ | label _ | goto _ | gotoIf _ _ _ | ret _ | expr _ => []

def bareOf : List Stmt → List Var
  | [] => []
  | s :: ss => s.bare ++ bareOf ss

end

/-- What is in scope behind a statement is declared there, unless it stands bare. -/
theorem settled_or_bare {s : Stmt} {v : Var} (exported : v ∈ s.exports) :
    v ∈ s.settled ∨ v ∈ s.bare := by
  cases s with
  | declare w e => exact .inl exported
  | ifThen c t => exact .inr (List.mem_append_left _ exported)
  | ifElse c t e =>
    refine .inr (List.mem_append.2 ?_)
    exact (List.mem_append.1 exported).imp (List.mem_append_left _) (List.mem_append_left _)
  | whileDo c body labels => exact .inr (List.mem_append_left _ exported)
  | doWhile body c labels => exact settled_or_bare (s := body) exported
  | _ => contradiction

theorem exports_subset_introduced (s : Stmt) : s.exports ⊆ s.introduced := by
  cases s with
  | declare v e => exact List.Subset.refl _
  | ifThen c t => exact exports_subset_introduced t
  | ifElse c t e =>
    exact List.append_subset.2
      ⟨List.subset_append_of_subset_left _ (exports_subset_introduced t),
        List.subset_append_of_subset_right _ (exports_subset_introduced e)⟩
  | whileDo c body labels => exact exports_subset_introduced body
  | doWhile body c labels => exact exports_subset_introduced body
  | block _ | forIn _ _ _ _ | label _ | goto _ | gotoIf _ _ _ | ret _ | expr _ =>
    exact List.nil_subset _

mutual

/-- With the variables `S` in scope, the statement mentions what is in scope only. -/
def Scoped (S : Var → Prop) : Stmt → Prop
  | block body => AllScoped S body
  | declare _ e | gotoIf _ e _ | ret (some e) | expr e => ∀ v ∈ e.vars, S v
  | ifThen c t => (∀ v ∈ c.vars, S v) ∧ t.Scoped S
  | ifElse c t e =>
    (∀ v ∈ c.vars, S v) ∧ t.Scoped S ∧ e.Scoped fun v => S v ∨ v ∈ t.exports
  | whileDo c body _ => (∀ v ∈ c.vars, S v) ∧ body.Scoped S
  | doWhile body c _ => body.Scoped S ∧ ∀ v ∈ c.vars, S v ∨ v ∈ body.exports
  | forIn w range body _ => (∀ v ∈ range.vars, S v) ∧ body.Scoped fun v => S v ∨ v = w
  | label _ | goto _ | ret none => True

def AllScoped (S : Var → Prop) : List Stmt → Prop
  | [] => True
  | s :: ss => s.Scoped S ∧ AllScoped (fun v => S v ∨ v ∈ s.exports) ss

end

mutual

theorem Scoped.mono {S T : Var → Prop} {s : Stmt} (inScope : s.Scoped S) (wider : ∀ v, S v → T v) :
    s.Scoped T := by
  have widen {vs : List Var} (within : ∀ v ∈ vs, S v) (v : Var) (member : v ∈ vs) : T v :=
    wider v (within v member)
  cases s with
  | block body => exact AllScoped.mono inScope wider
  | declare v e | gotoIf l e value | expr e => exact widen inScope
  | ifThen c t => exact ⟨widen inScope.1, inScope.2.mono wider⟩
  | ifElse c t e =>
    exact ⟨widen inScope.1, inScope.2.1.mono wider, inScope.2.2.mono fun v => .imp_left (wider v)⟩
  | whileDo c body labels => exact ⟨widen inScope.1, inScope.2.mono wider⟩
  | doWhile body c labels =>
    exact ⟨inScope.1.mono wider, fun v member => (inScope.2 v member).imp_left (wider v)⟩
  | forIn w range body labels =>
    exact ⟨widen inScope.1, inScope.2.mono fun v => .imp_left (wider v)⟩
  | label l | goto l => trivial
  | ret value =>
    cases value with
    | none => trivial
    | some e => exact widen inScope

theorem AllScoped.mono {S T : Var → Prop} {ss : List Stmt} (inScope : AllScoped S ss)
    (wider : ∀ v, S v → T v) : AllScoped T ss := by
  cases ss with
  | nil => trivial
  | cons s ss => exact ⟨inScope.1.mono wider, AllScoped.mono inScope.2 fun v => .imp_left (wider v)⟩

end

end Stmt

namespace Binding

open Source (Token Name TypeClause)

variable {S : Var → Prop} {c : BindContext} {scope : Scope}

theorem Gives.yields {α : Type} {x : Bind α} {P : α → Prop} (gives : Gives x P) : Yields x P :=
  fun s => (gives fun _ => False).holds s

abbrev Shows (scope : Scope) (S : Var → Prop) : Prop := scope.Holds (Symbol.In S fun _ => True)

theorem Shows.mono {T : Var → Prop} (shows : Shows scope S) (wider : ∀ v, S v → T v) :
    Shows scope T := by
  refine Scope.Holds.mono shows fun symbol isIn => ?_
  cases symbol with
  | var v => exact wider v isIn
  | fn f => exact isIn

/-- A new variable is in scope then, if its name is free, and nothing else is new there. -/
theorem declareVar_shows {name : Name} {readOnly : Bool} {ty : Ty} {constant : Option Value}
    (shows : Shows scope S) :
    Yields (declareVar c scope name readOnly ty constant) fun declared =>
      Shows declared.2 (fun v => S v ∨ v = declared.1) ∧ declared.2.outer = scope.outer := by
  unfold declareVar
  apply Yields.after
  intro v
  have older : Shows scope fun w => S w ∨ w = v := shows.mono fun _ => .inl
  cases declared : scope.declare? name.text (.var v) with
  | none => exact .after fun _ => .pure ⟨older, rfl⟩
  | some scope' =>
    have new : Symbol.In (fun w => S w ∨ w = v) (fun _ => True) (.var v) := Or.inr rfl
    refine .pure ⟨older.declare new declared, ?_⟩
    unfold Scope.declare? at declared
    split at declared
    · contradiction
    · obtain rfl := Option.some.inj declared
      rfl

structure StmtScoped (S : Var → Prop) (scope : Scope) (bound : Stmt × Scope) : Prop where
  stmt : bound.1.Scoped S
  behind : Shows bound.2 fun v => S v ∨ v ∈ bound.1.exports
  outer : bound.2.outer = scope.outer

structure BodyScoped (S : Var → Prop) (scope : Scope) (bound : Body × Scope) : Prop where
  body : Stmt.AllScoped S bound.1
  outer : bound.2.outer = scope.outer

/-- A statement that exports nothing leaves the scope as it is. -/
theorem StmtScoped.same {s : Stmt} (shows : Shows scope S) (inScope : s.Scoped S) :
    StmtScoped S scope (s, scope) :=
  ⟨inScope, shows.mono fun _ => .inl, rfl⟩

theorem declaration_scoped {keyword : Token} {name : Name} {type : Option TypeClause}
    {source : Source.Expr} (shows : Shows scope S) :
    Yields (declaration c scope keyword name type source) (StmtScoped S scope) := by
  unfold declaration
  extract_lets rest
  have restYields (declared : Option Ty) : Yields (rest declared) (StmtScoped S scope) := by
    refine (value_gives shows source).yields.bind fun bound within => ?_
    refine (convert_gives within).yields.bind fun converted within => ?_
    refine (declareVar_shows shows).bind fun declared known => .pure ⟨within.vars, ?_, known.2⟩
    exact known.1.mono fun v => .imp_right List.mem_singleton.2
  cases type with
  | none => exact .after fun declared => restYields declared
  | some clause => exact .after fun declared => restYields declared

theorem jump_scoped {keyword : Token} : Yields (jump c keyword) (Stmt.Scoped S) := by
  unfold jump
  cases c.loops with
  | nil => exact .after fun _ => .pure (List.forall_mem_nil _)
  | cons labels loops => exact .pure trivial

theorem returnStmt_scoped {keyword : TextRange} {bound : Option (TextRange × Expr)}
    (within : ∀ pair, bound = some pair → pair.2.Within (Symbol.In S fun _ => True)) :
    Yields (returnStmt c keyword bound) (Stmt.Scoped S) := by
  intro s
  obtain ⟨value, equal, withinValue⟩ := (returnStmt_gives _ within).yields s
  rw [equal]
  cases value with
  | none => trivial
  | some e => exact (withinValue e rfl).vars

mutual

theorem stmt_scoped {S : Var → Prop} {c : BindContext} {scope : Scope} (isGlobal : Bool)
    (shows : Shows scope S) (s : Source.Stmt) :
    Yields (stmt c isGlobal scope s) (StmtScoped S scope) := by
  cases s with
  | block m body =>
    exact (stmts_scoped shows.push body).bind fun bound inScope => .pure (.same shows inScope.body)
  | declare m keyword name type source => exact declaration_scoped shows
  | ifThen m condition thenBody =>
    refine (valueOf_gives shows .bool condition).yields.bind fun condition within => ?_
    refine (stmt_scoped false shows thenBody).bind fun bound inScope => ?_
    exact .pure ⟨⟨within.vars, inScope.stmt⟩, inScope.behind, inScope.outer⟩
  | ifElse m condition thenBody elseBody =>
    refine (valueOf_gives shows .bool condition).yields.bind fun condition within => ?_
    refine (stmt_scoped false shows thenBody).bind fun bound inScope => ?_
    -- What the first branch exports is in scope in the second one.
    refine (stmt_scoped false inScope.behind elseBody).bind fun bound' inScope' => ?_
    refine .pure ⟨⟨within.vars, inScope.stmt, inScope'.stmt⟩, ?_, inScope'.outer.trans inScope.outer⟩
    exact inScope'.behind.mono fun v isKnown =>
      (or_assoc.1 isKnown).imp_right List.mem_append.2
  | whileDo m condition body =>
    refine (valueOf_gives shows .bool condition).yields.bind fun condition within => ?_
    apply Yields.after
    intro labels
    refine (stmt_scoped false shows body).bind fun bound inScope => ?_
    exact .pure ⟨⟨within.vars, inScope.stmt⟩, inScope.behind, inScope.outer⟩
  | doWhile m body condition =>
    apply Yields.after
    intro labels
    refine (stmt_scoped false shows body).bind fun bound inScope => ?_
    refine (valueOf_gives inScope.behind .bool condition).yields.bind fun condition within => ?_
    exact .pure ⟨⟨inScope.stmt, within.vars⟩, inScope.behind, inScope.outer⟩
  | forIn m name range body =>
    refine (loopRange_gives shows range).yields.bind fun range within => ?_
    refine (declareVar_shows shows.push).bind fun declared known => ?_
    apply Yields.after
    intro labels
    refine (stmt_scoped false known.1 body).bind fun bound inScope => ?_
    exact .pure (.same shows ⟨within.vars, inScope.stmt⟩)
  | jump keyword => exact jump_scoped.bind fun bound inScope => .pure (.same shows inScope)
  | ret m keyword value =>
    cases value with
    | none =>
      refine (returnStmt_scoped fun pair equal => ?_).bind fun bound inScope => .pure (.same shows inScope)
      contradiction
    | some e =>
      refine (value_gives shows e).yields.bind fun bound within => ?_
      refine (returnStmt_scoped fun pair equal => ?_).bind fun bound inScope => .pure (.same shows inScope)
      obtain rfl := Option.some.inj equal
      exact within
  | expr m e =>
    refine (expr_gives shows e).yields.bind fun bound within => ?_
    have inScope : StmtScoped S scope (.expr bound, scope) := .same shows within.vars
    dsimp only
    split
    · exact .after fun _ => .pure inScope
    · exact .pure inScope

theorem stmts_scoped {S : Var → Prop} {c : BindContext} {scope : Scope} (shows : Shows scope S)
    (ss : List Source.Stmt) : Yields (stmts c scope ss) (BodyScoped S scope) := by
  cases ss with
  | nil => exact .pure ⟨trivial, rfl⟩
  | cons s ss =>
    refine (stmt_scoped false shows s).bind fun bound inScope => ?_
    refine (stmts_scoped inScope.behind ss).bind fun rest inScopeRest => ?_
    exact .pure ⟨⟨inScope.stmt, inScopeRest.body⟩, inScopeRest.outer.trans inScope.outer⟩

end

theorem globals_scoped (shows : Shows scope S) (ss : List Source.Stmt) :
    Yields (globals c scope ss) (BodyScoped S scope) := by
  induction ss generalizing S scope with
  | nil => exact .pure ⟨trivial, rfl⟩
  | cons s ss ih =>
    refine (stmt_scoped true shows s).bind fun bound inScope => ?_
    refine (ih inScope.behind).bind fun rest inScopeRest => ?_
    exact .pure ⟨⟨inScope.stmt, inScopeRest.body⟩, inScopeRest.outer.trans inScope.outer⟩

theorem functionBodies_scoped (shows : Shows scope S) (declared : List (Fn × Source.Function)) :
    Yields (functionBodies c scope declared) fun bodies =>
      ∀ p ∈ bodies, Stmt.AllScoped (fun v => S v ∨ v ∈ p.1.parameters) p.2 := by
  induction declared with
  | nil => exact .pure (List.forall_mem_nil _)
  | cons p declared ih =>
    have inner := holds_parameters (P := Symbol.In (fun v => S v ∨ v ∈ p.1.parameters) fun _ => True)
      (shows.mono fun _ => .inl).push fun v member => Or.inr member
    have body : Yields (functionBody c scope p.1 p.2)
        (Stmt.AllScoped fun v => S v ∨ v ∈ p.1.parameters) :=
      (stmts_scoped inner.push p.2.body).bind fun bound inScope => .pure inScope.body
    refine body.bind fun body inScope => ?_
    exact ih.bind fun bodies inScopeRest => .pure (List.forall_mem_cons.2 ⟨inScope, inScopeRest⟩)

/-- The bodies of a unit mention the variables that the unit and those before it declare for all
functions, the parameters of their function, and what they declare themselves. -/
def UnitScoped (S : Var → Prop) (bound : BoundUnit) : Prop :=
  ∀ p ∈ bound.bodies,
    Stmt.AllScoped (fun v => (S v ∨ v ∈ bound.declarations.vars) ∨ v ∈ p.1.parameters) p.2

/-- A unit starts to be bound where the variables of the units before it are in scope. -/
theorem start_shows {history : List Declarations} (vars : ∀ d ∈ history, ∀ v ∈ d.vars, S v) :
    Yields (Bind.fresh rootScope) fun root => Shows (historyScope root history).push S := by
  have root : Yields (Bind.fresh rootScope) fun root =>
      root.Holds (Symbol.In (fun _ => False) fun _ => True) :=
    (rootScope_tracks (S := fun _ => True) fun _ _ => trivial).holds
  exact fun s => historyScope_holds (root s) vars fun _ _ _ _ => trivial

theorem declareFns_shows {file : Option String} (shows : Shows scope S) (fs : List Source.Function) :
    Yields (declareFns file scope fs) fun declared => Shows declared.2 S := fun s =>
  ((declareFns_tracks (S := fun _ => True) fs).holds s).holds _ shows fun _ _ => trivial

theorem unit_scoped {scriptMode : Bool} {file : Option String} {history : List Declarations}
    {u : Source.Unit} (vars : ∀ d ∈ history, ∀ v ∈ d.vars, S v) :
    Yields (unit scriptMode file history u) (UnitScoped S) := by
  unfold unit
  refine (start_shows vars).bind fun root starts => ?_
  refine (declareFns_shows starts u.functions).bind fun r shows => ?_
  obtain ⟨declaredFns, scope⟩ := r
  dsimp only
  refine (globals_scoped shows u.statements).bind fun bound inScope => ?_
  obtain ⟨statements, scope'⟩ := bound
  have behind : Shows scope' fun v => S v ∨ v ∈ scope'.vars := by
    intro m member symbol within
    cases symbol with
    | fn f => trivial
    | var v =>
      rcases List.mem_cons.1 member with rfl | outer
      · exact .inr (List.mem_filterMap.2 ⟨.var v, within, rfl⟩)
      · have same : scope'.outer = scope.outer := inScope.outer
        exact .inl (shows m (List.mem_cons_of_mem _ (same ▸ outer)) (.var v) within)
  apply Yields.after
  intro entry
  refine (functionBodies_scoped behind declaredFns).bind fun bodies inScopeBodies => ?_
  apply Yields.after
  intro state
  apply Yields.pure
  intro p member
  rcases mem_addEntry member with member | ⟨e, _, rfl, _⟩
  · exact inScopeBodies p member
  · exact inScope.body.mono fun v isKnown => .inl (.inl isKnown)

theorem globals_showGlobals (outside : c.function.isNone = true)
    (shows : Shows scope fun v => v.isGlobal = true) (ss : List Source.Stmt) :
    Yields (globals c scope ss) fun bound => Shows bound.2 fun v => v.isGlobal = true := by
  induction ss generalizing scope with
  | nil => exact .pure shows
  | cons s ss ih =>
    refine ((stmt_scoped true shows s).and (stmt_introduces true s)).bind fun bound known => ?_
    obtain ⟨inScope, introduces⟩ := known
    have behind := inScope.behind.mono fun v isKnown => isKnown.elim id fun exported =>
      (introduces.kind v (Stmt.exports_subset_introduced bound.1 exported)).trans outside
    exact (ih behind).bind fun rest behindRest => .pure behindRest

theorem unit_declaresGlobals {scriptMode : Bool} {file : Option String}
    {history : List Declarations} {u : Source.Unit}
    (vars : ∀ d ∈ history, ∀ v ∈ d.vars, v.isGlobal = true) :
    Yields (unit scriptMode file history u) fun bound =>
      ∀ v ∈ bound.declarations.vars, v.isGlobal = true := by
  unfold unit
  refine (start_shows vars).bind fun root starts => ?_
  refine (declareFns_shows starts u.functions).bind fun r shows => ?_
  obtain ⟨declaredFns, scope⟩ := r
  dsimp only
  refine (globals_showGlobals rfl shows u.statements).bind fun bound behind => ?_
  apply Yields.after
  intro entry
  apply Yields.after
  intro bodies
  apply Yields.after
  intro state
  apply Yields.pure
  intro v member
  obtain ⟨symbol, within, isVar⟩ := List.mem_filterMap.1 member
  cases symbol with
  | fn f => contradiction
  | var w =>
    obtain rfl := Option.some.inj isVar
    exact behind _ List.mem_cons_self (.var w) within

end Binding

theorem bindUnit_scoped {S : Var → Prop} {history : List Declarations}
    (vars : ∀ d ∈ history, ∀ v ∈ d.vars, S v) (scriptMode : Bool) (file : Option String)
    (u : Source.Unit) (next : Nat) :
    Binding.UnitScoped S (bindUnit scriptMode file history u next).1 :=
  Binding.unit_scoped vars ⟨next, .empty⟩

theorem bindUnit_declaresGlobals {history : List Declarations}
    (vars : ∀ d ∈ history, ∀ v ∈ d.vars, v.isGlobal = true) (scriptMode : Bool)
    (file : Option String) (u : Source.Unit) (next : Nat) :
    ∀ v ∈ (bindUnit scriptMode file history u next).1.declarations.vars, v.isGlobal = true :=
  Binding.unit_declaresGlobals vars ⟨next, .empty⟩

end ScriptLang
