import ScriptLang.Proofs.UnitSymbols

/-! A variable that is declared with a value known ahead of time carries this value as its
constant. No other variable has one, neither has the variable of a loop. -/

namespace ScriptLang

namespace Stmt

mutual

/-- Declarations give the variables that have constants no other values than these. -/
def RecordsConstants : Stmt → Prop
  | block body => AllRecordConstants body
  | declare v e => ∀ c, v.constant = some c → e.constant? = some c
  | ifThen _ t => t.RecordsConstants
  | ifElse _ t e => t.RecordsConstants ∧ e.RecordsConstants
  | whileDo _ body _ | doWhile body _ _ => body.RecordsConstants
  | forIn v _ body _ => v.constant = none ∧ body.RecordsConstants
  | label _ | goto _ | gotoIf _ _ _ | ret _ | expr _ => True

def AllRecordConstants : List Stmt → Prop
  | [] => True
  | s :: ss => s.RecordsConstants ∧ AllRecordConstants ss

end

end Stmt

namespace Binding

open Source (Token Name TypeClause)

/-- Whatever the state, `x` gives a value with `P`. -/
def Yields {α : Type} (x : Bind α) (P : α → Prop) : Prop := ∀ s, P (x s).1

namespace Yields

variable {α β : Type} {P : α → Prop} {Q : β → Prop} {x : Bind α} {f : α → Bind β}

theorem pure {a : α} (holds : P a) : Yields (Pure.pure a) P := fun _ => holds

theorem bind (first : Yields x P) (second : ∀ a, P a → Yields (f a) Q) : Yields (x >>= f) Q :=
  fun s => second (x s).1 (first s) (x s).2

/-- What comes first does not matter. -/
theorem after (second : ∀ a, Yields (f a) Q) : Yields (x >>= f) Q :=
  fun s => second (x s).1 (x s).2

theorem fresh {x : Fresh α} (holds : ∀ n, P (x n).1) : Yields (Bind.fresh x) P :=
  fun s => holds s.nextId

end Yields

variable {c : BindContext} {scope : Scope}

/-- The constant of a new variable is the one that it is given. -/
theorem declareVar_yields {name : Name} {readOnly : Bool} {ty : Ty} {constant : Option Value} :
    Yields (declareVar c scope name readOnly ty constant) fun declared =>
      ∀ value, declared.1.constant = some value → constant = some value := by
  unfold declareVar
  have made (kind : VarKind) :
      Yields (Bind.fresh (Var.create name.text readOnly ty kind constant)) fun v =>
        ∀ value, v.constant = some value → constant = some value := by
    apply Yields.fresh
    intro n value known
    cases readOnly with
    | true => exact known
    | false => contradiction
  refine (made _).bind fun v records => ?_
  cases scope.declare? name.text (.var v) with
  | none => exact .after fun _ => .pure records
  | some scope' => exact .pure records

theorem declaration_yields {keyword : Token} {name : Name} {type : Option TypeClause}
    {source : Source.Expr} :
    Yields (declaration c scope keyword name type source) fun b => b.1.RecordsConstants := by
  unfold declaration
  extract_lets rest
  have restYields (declared : Option Ty) :
      Yields (rest declared) fun b => b.1.RecordsConstants := by
    apply Yields.after
    intro bound
    apply Yields.after
    intro converted
    exact declareVar_yields.bind fun declared records => .pure records
  cases type with
  | none => exact .after fun declared => restYields declared
  | some clause => exact .after fun declared => restYields declared

theorem jump_yields {keyword : Token} : Yields (jump c keyword) Stmt.RecordsConstants := by
  unfold jump
  cases c.loops with
  | nil => exact .after fun _ => .pure trivial
  | cons labels loops => exact .pure trivial

theorem returnStmt_yields {keyword : TextRange} {bound : Option (TextRange × Expr)} :
    Yields (returnStmt c keyword bound) Stmt.RecordsConstants := by
  intro s
  obtain ⟨value, equal⟩ := (returnStmt_isRet fun _ => True).holds s
  rw [equal]
  trivial

mutual

theorem stmt_yields {c : BindContext} {scope : Scope} (isGlobal : Bool) (s : Source.Stmt) :
    Yields (stmt c isGlobal scope s) fun b => b.1.RecordsConstants := by
  cases s with
  | block m body => exact (stmts_yields body).bind fun bound records => .pure records
  | declare m keyword name type source => exact declaration_yields
  | ifThen m condition thenBody =>
    apply Yields.after
    exact fun condition => (stmt_yields false thenBody).bind fun bound records => .pure records
  | ifElse m condition thenBody elseBody =>
    apply Yields.after
    intro condition
    refine (stmt_yields false thenBody).bind fun bound records => ?_
    exact (stmt_yields false elseBody).bind fun bound' records' => .pure ⟨records, records'⟩
  | whileDo m condition body =>
    apply Yields.after
    intro condition
    apply Yields.after
    exact fun labels => (stmt_yields false body).bind fun bound records => .pure records
  | doWhile m body condition =>
    apply Yields.after
    intro labels
    exact (stmt_yields false body).bind fun bound records => .after fun condition => .pure records
  | forIn m name range body =>
    apply Yields.after
    intro range
    refine declareVar_yields.bind fun declared records => ?_
    have unknown : declared.1.constant = none :=
      Option.eq_none_iff_forall_ne_some.2 fun value known => by cases records value known
    apply Yields.after
    exact fun labels => (stmt_yields false body).bind fun bound records => .pure ⟨unknown, records⟩
  | jump keyword => exact jump_yields.bind fun bound records => .pure records
  | ret m keyword value =>
    cases value with
    | none => exact returnStmt_yields.bind fun bound records => .pure records
    | some e =>
      apply Yields.after
      exact fun bound => returnStmt_yields.bind fun bound records => .pure records
  | expr m e =>
    apply Yields.after
    intro bound
    dsimp only
    split
    · exact .after fun _ => .pure trivial
    · exact .pure trivial

theorem stmts_yields {c : BindContext} {scope : Scope} (ss : List Source.Stmt) :
    Yields (stmts c scope ss) fun b => Stmt.AllRecordConstants b.1 := by
  cases ss with
  | nil => exact .pure trivial
  | cons s ss =>
    refine (stmt_yields false s).bind fun bound records => ?_
    exact (stmts_yields ss).bind fun rest recordsRest => .pure ⟨records, recordsRest⟩

end

theorem globals_yields (ss : List Source.Stmt) :
    Yields (globals c scope ss) fun b => Stmt.AllRecordConstants b.1 := by
  induction ss generalizing scope with
  | nil => exact .pure trivial
  | cons s ss ih =>
    refine (stmt_yields true s).bind fun bound records => ?_
    exact ih.bind fun rest recordsRest => .pure ⟨records, recordsRest⟩

theorem functionBodies_yields (declared : List (Fn × Source.Function)) :
    Yields (functionBodies c scope declared) fun bodies =>
      ∀ p ∈ bodies, Stmt.AllRecordConstants p.2 := by
  induction declared with
  | nil => exact .pure (List.forall_mem_nil _)
  | cons p declared ih =>
    have body : Yields (functionBody c scope p.1 p.2) Stmt.AllRecordConstants :=
      (stmts_yields p.2.body).bind fun bound records => .pure records
    refine body.bind fun body records => ?_
    exact ih.bind fun bodies recordsRest => .pure (List.forall_mem_cons.2 ⟨records, recordsRest⟩)

theorem unit_yields {scriptMode : Bool} {file : Option String} {history : List Declarations}
    {u : Source.Unit} :
    Yields (unit scriptMode file history u) fun bound =>
      ∀ p ∈ bound.bodies, Stmt.AllRecordConstants p.2 := by
  unfold unit
  apply Yields.after
  intro root
  apply Yields.after
  intro declared
  refine (globals_yields u.statements).bind fun bound records => ?_
  apply Yields.after
  intro entry
  refine (functionBodies_yields declared.1).bind fun bodies recordsBodies => ?_
  apply Yields.after
  intro state
  apply Yields.pure
  intro p member
  rcases mem_addEntry member with member | ⟨e, _, rfl, _⟩
  · exact recordsBodies p member
  · exact records

end Binding

/-- Declarations in the bodies of a unit record what is known of their variables, and nothing
is known of parameters. -/
theorem bindUnit_recordsConstants (scriptMode : Bool) (file : Option String)
    (history : List Declarations) (u : Source.Unit) (next : Nat) :
    ∀ p ∈ (bindUnit scriptMode file history u next).1.bodies,
      Stmt.AllRecordConstants p.2 ∧ ∀ v ∈ p.1.parameters, v.constant = none := by
  intro p member
  have shape := (bindUnit_tracked_anyway scriptMode file u).shape p.1 (List.mem_map_of_mem member)
  refine ⟨Binding.unit_yields ⟨next, .empty⟩ p member, fun v isParameter => ?_⟩
  exact (shape.2 v isParameter).unknown

end ScriptLang
