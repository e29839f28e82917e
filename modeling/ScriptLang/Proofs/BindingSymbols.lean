import ScriptLang.Proofs.Tracking

/-! Bound code mentions the symbols in scope and the variables that binding makes for it. A
jump leads to a loop around it. -/

namespace ScriptLang

structure Expr.Within (known : Symbol → Prop) (e : Expr) : Prop where
  vars : ∀ v ∈ e.vars, known (.var v)
  calls : ∀ f ∈ e.calls, known (.fn f)

namespace Expr.Within

variable {known : Symbol → Prop}

theorem error : Expr.error.Within known := ⟨nofun, nofun⟩

theorem literal (value : Value) : (Expr.literal value).Within known := ⟨nofun, nofun⟩

theorem var {v : Var} (isKnown : known (.var v)) : (Expr.var v).Within known :=
  ⟨by simpa [Expr.vars] using isKnown, nofun⟩

theorem convert {e : Expr} (within : e.Within known) (t : Ty) : (Expr.convert t e).Within known :=
  ⟨within.vars, within.calls⟩

theorem assign {v : Var} {e : Expr} (isKnown : known (.var v)) (within : e.Within known) :
    (Expr.assign v e).Within known :=
  ⟨List.forall_mem_cons.2 ⟨isKnown, within.vars⟩, within.calls⟩

theorem unary {e : Expr} (within : e.Within known) (op : UnaryOp) :
    (Expr.unary op e).Within known := ⟨within.vars, within.calls⟩

theorem binary {l r : Expr} (left : l.Within known) (right : r.Within known) (op : BinaryOp) :
    (Expr.binary l op r).Within known :=
  ⟨List.forall_mem_append.2 ⟨left.vars, right.vars⟩,
    List.forall_mem_append.2 ⟨left.calls, right.calls⟩⟩

theorem range {l r : Expr} (left : l.Within known) (right : r.Within known) :
    (Expr.range l r).Within known :=
  ⟨List.forall_mem_append.2 ⟨left.vars, right.vars⟩,
    List.forall_mem_append.2 ⟨left.calls, right.calls⟩⟩

theorem call {f : Fn} {args : List Expr} (isKnown : known (.fn f))
    (within : ∀ e ∈ args, e.Within known) : (Expr.call f args).Within known := by
  have vars : ∀ v ∈ varsOf args, known (.var v) := by
    induction args with
    | nil => exact nofun
    | cons e es ih =>
      obtain ⟨first, rest⟩ := List.forall_mem_cons.1 within
      exact List.forall_mem_append.2 ⟨first.vars, ih rest⟩
  have calls : ∀ g ∈ callsOf args, known (.fn g) := by
    induction args with
    | nil => exact nofun
    | cons e es ih =>
      obtain ⟨first, rest⟩ := List.forall_mem_cons.1 within
      exact List.forall_mem_append.2 ⟨first.calls, ih rest (List.forall_mem_append.1 vars).2⟩
  exact ⟨vars, List.forall_mem_cons.2 ⟨isKnown, calls⟩⟩

end Expr.Within

namespace Binding

open Source (Token Name TypeClause)

variable {known : Symbol → Prop} {S : Var → Prop} {file : Option String} {scope : Scope}

/-- Whatever the state, `x` gives a value with `P` and makes no variables. -/
abbrev Gives {α : Type} (x : Bind α) (P : α → Prop) : Prop :=
  ∀ S, Tracks Var.id S x P fun _ _ => False

theorem Gives.bind {α β : Type} {x : Bind α} {f : α → Bind β} {P : α → Prop} {Q : β → Prop}
    (first : Gives x P) (second : ∀ a, P a → Gives (f a) Q) : Gives (x >>= f) Q :=
  fun S => (first S).bind fun a holds => (second a holds _)

/-- What is tracked after an expression is bound starts from the same variables. -/
theorem Gives.before {α β : Type} {x : Bind α} {f : α → Bind β} {P : α → Prop} {Q : β → Prop}
    {S : Var → Prop} {U : β → Var → Prop} (first : Gives x P)
    (second : ∀ a, P a → Tracks Var.id S (f a) Q U) : Tracks Var.id S (x >>= f) Q U :=
  (first S).before second

theorem Gives.pure {α : Type} {a : α} {P : α → Prop} (holds : P a) : Gives (Pure.pure a) P :=
  fun _ => .pure holds fun _ impossible => impossible.elim

theorem Gives.reported {β : Type} {f : PUnit → Bind β} {Q : β → Prop}
    {range : TextRange} {m : Message} {args : List String} (second : ∀ a, Gives (f a) Q) :
    Gives (Bind.report file range m args >>= f) Q :=
  fun S => .reported (.report _ _ _ _) fun a => second a S

theorem requireValue_gives {range : TextRange} {bound : Expr} (within : bound.Within known) :
    Gives (requireValue file range bound) (Expr.Within known) := by
  unfold requireValue
  split
  · exact .reported fun _ => .pure .error
  · exact .pure within

theorem convert_gives {range : TextRange} {e : Expr} {target : Ty} {allowExplicit : Bool}
    (within : e.Within known) :
    Gives (convert file range e target allowExplicit) (Expr.Within known) := by
  unfold convert
  split
  · exact .pure within
  · cases Conversion.classify e.ty target with
    | none => exact .reported fun _ => .pure .error
    | identity => exact .pure within
    | implicit => exact .pure (within.convert target)
    | explicit =>
      dsimp only
      split
      · exact .reported fun _ => .pure (within.convert target)
      · exact .pure (within.convert target)

theorem resolveVar_gives (holds : scope.Holds known) (name : Name) :
    Gives (resolveVar file scope name) fun v? => ∀ v, v? = some v → known (.var v) := by
  unfold resolveVar
  cases found : scope.lookup? name.text with
  | none => exact .reported fun _ => .pure nofun
  | some symbol =>
    cases symbol with
    | var v =>
      refine .pure fun w equal => ?_
      obtain rfl := Option.some.inj equal
      exact holds.lookup found
    | fn f => exact .reported fun _ => .pure nofun

theorem unary_gives {op : Token} {operand : Expr} (within : operand.Within known) :
    Gives (unary file op operand) (Expr.Within known) := by
  unfold unary
  split
  · exact .pure .error
  · cases UnaryOp.resolve? op.kind operand.ty with
    | none => exact .reported fun _ => .pure .error
    | some o => exact .pure (within.unary o)

theorem binary_gives {op : Token} {kind : Source.Kind} {left right : Expr}
    (leftWithin : left.Within known) (rightWithin : right.Within known) :
    Gives (binary file op kind left right) (Expr.Within known) := by
  unfold binary
  split
  · exact .pure .error
  · cases BinaryOp.resolve? kind left.ty right.ty with
    | none => exact .reported fun _ => .pure .error
    | some o => exact .pure (leftWithin.binary rightWithin o)

theorem assignTo_gives {op : Token} {range : TextRange} {value : Expr} {v : Var}
    (isKnown : known (.var v)) (within : value.Within known) :
    Gives
      (match op.kind.compound? with
      | none => do return Expr.assign v (← convert file range value v.ty false)
      | some kind => do
        let combined ← binary file op kind (.var v) value
        if combined.isError then return .error
        else return .assign v (← convert file range combined v.ty false))
      (Expr.Within known) := by
  cases op.kind.compound? with
  | none => exact (convert_gives within).bind fun _ within => .pure (.assign isKnown within)
  | some kind =>
    refine (binary_gives (.var isKnown) within).bind fun combined within => ?_
    split
    · exact .pure .error
    · exact (convert_gives within).bind fun _ within => .pure (.assign isKnown within)

theorem assign_gives {target : Name} {op : Token} {range : TextRange} {value : Expr}
    (holds : scope.Holds known) (within : value.Within known) :
    Gives (assign file scope target op range value) (Expr.Within known) := by
  unfold assign
  refine (resolveVar_gives holds target).bind fun v? resolved => ?_
  cases v? with
  | none => exact .pure .error
  | some v =>
    dsimp only
    split
    · exact .reported fun _ => assignTo_gives (resolved v rfl) within
    · exact assignTo_gives (resolved v rfl) within

theorem convertArgs_gives {sources : List Source.Expr} {args : List Expr} {ps : List Var}
    (within : ∀ arg ∈ args, arg.Within known) :
    Gives (convertArgs file sources args ps) fun converted => ∀ e ∈ converted, e.Within known := by
  induction sources generalizing args ps with
  | nil => exact .pure nofun
  | cons source sources ih =>
    cases args with
    | nil => exact .pure nofun
    | cons arg args =>
      cases ps with
      | nil => exact .pure nofun
      | cons p ps =>
        obtain ⟨head, tail⟩ := List.forall_mem_cons.1 within
        refine (convert_gives head).bind fun first within => ?_
        exact (ih tail).bind fun rest withinRest =>
          .pure (List.forall_mem_cons.2 ⟨within, withinRest⟩)

theorem call_gives {range : TextRange} {callee : Name} {sources : List Source.Expr}
    {args : List Expr} (holds : scope.Holds known) (within : ∀ arg ∈ args, arg.Within known) :
    Gives (call file scope range callee sources args) (Expr.Within known) := by
  unfold call
  split
  next ty source arg _ => exact convert_gives (within arg List.mem_cons_self)
  next =>
    cases found : scope.lookup? callee.text with
    | none => exact .reported fun _ => .pure .error
    | some symbol =>
      cases symbol with
      | var v => exact .reported fun _ => .pure .error
      | fn f =>
        have isKnown : known (.fn f) := holds.lookup found
        dsimp only
        split
        · exact .reported fun _ => .pure .error
        · exact (convertArgs_gives within).bind fun _ within => .pure (.call isKnown within)

mutual

theorem expr_gives (holds : scope.Holds known) (e : Source.Expr) :
    Gives (expr file scope e) (Expr.Within known) := by
  cases e with
  | paren m inner => exact expr_gives holds inner
  | literal m v => exact .pure (.literal v)
  | name m name =>
    refine (resolveVar_gives holds name).bind fun v? resolved => ?_
    cases v? with
    | none => exact .pure .error
    | some v => exact .pure (.var (resolved v rfl))
  | assign m target op value =>
    refine (expr_gives holds value).bind fun _ within => ?_
    exact (requireValue_gives within).bind fun _ within => assign_gives holds within
  | unary m op operand =>
    refine (expr_gives holds operand).bind fun _ within => ?_
    exact (requireValue_gives within).bind fun _ within => unary_gives within
  | binary m left op right =>
    refine (expr_gives holds left).bind fun _ within => ?_
    refine (requireValue_gives within).bind fun _ leftWithin => ?_
    refine (expr_gives holds right).bind fun _ within => ?_
    exact (requireValue_gives within).bind fun _ rightWithin => binary_gives leftWithin rightWithin
  | range m lower upper =>
    refine (expr_gives holds lower).bind fun _ within => ?_
    refine (requireValue_gives within).bind fun _ _ => ?_
    refine (expr_gives holds upper).bind fun _ within => ?_
    exact (requireValue_gives within).bind fun _ _ => .reported fun _ => .pure .error
  | call m callee args =>
    exact (exprs_gives holds args).bind fun _ within => call_gives holds within

theorem exprs_gives (holds : scope.Holds known) (es : List Source.Expr) :
    Gives (exprs file scope es) fun bound => ∀ e ∈ bound, e.Within known := by
  cases es with
  | nil => exact .pure nofun
  | cons e es =>
    refine (expr_gives holds e).bind fun _ within => ?_
    refine (requireValue_gives within).bind fun _ within => ?_
    exact (exprs_gives holds es).bind fun _ rest => .pure (List.forall_mem_cons.2 ⟨within, rest⟩)

end

theorem value_gives (holds : scope.Holds known) (e : Source.Expr) :
    Gives (value file scope e) (Expr.Within known) :=
  (expr_gives holds e).bind fun _ within => requireValue_gives within

theorem valueOf_gives (holds : scope.Holds known) (target : Ty) (e : Source.Expr) :
    Gives (valueOf file scope target e) (Expr.Within known) :=
  (value_gives holds e).bind fun _ within => convert_gives within

theorem loopRange_gives (holds : scope.Holds known) (range : Source.Expr) :
    Gives (loopRange file scope range) (Expr.Within known) := by
  cases range with
  | range m lower upper =>
    have rest {l : Expr} (within : l.Within known) : Gives (do
        let u ← valueOf file scope .int upper
        return Expr.range l u) (Expr.Within known) :=
      (valueOf_gives holds .int upper).bind fun _ withinUpper => .pure (within.range withinUpper)
    refine (value_gives holds lower).bind fun l within => ?_
    dsimp only
    split
    · exact .reported fun _ => Gives.bind (.pure Expr.Within.error) fun _ within => rest within
    · exact rest within
  | _ => exact .reported fun _ => .pure .error

end Binding

namespace Stmt

mutual

/-- Jumps lead to loops around them. -/
def JumpsWithin (enclosing : List LoopLabels) : Stmt → Prop
  | block body => AllJumpWithin enclosing body
  | declare _ _ | ret _ | expr _ => True
  | ifThen _ t => t.JumpsWithin enclosing
  | ifElse _ t e => t.JumpsWithin enclosing ∧ e.JumpsWithin enclosing
  | whileDo _ body l | doWhile body _ l | forIn _ _ body l => body.JumpsWithin (l :: enclosing)
  | goto l => ∃ k ∈ enclosing, l = k.onBreak ∨ l = k.onContinue
  | label _ | gotoIf _ _ _ => False

def AllJumpWithin (enclosing : List LoopLabels) : List Stmt → Prop
  | [] => True
  | s :: ss => s.JumpsWithin enclosing ∧ AllJumpWithin enclosing ss

end

end Stmt

namespace Binding

open Source (Token Name TypeClause)

variable {F : Fn → Prop} {S : Var → Prop} {c : BindContext} {scope : Scope}

structure KeepsFns (F : Fn → Prop) (scope scope' : Scope) : Prop where
  only : scope'.OnlyFns F
  same : scope'.fns = scope.fns

theorem declareVar_tracks {name : Name} {readOnly : Bool} {ty : Ty} {constant : Option Value}
    (starts : scope.Holds (Symbol.In S F)) :
    Tracks Var.id S (declareVar c scope name readOnly ty constant)
      (fun declared => KeepsFns F scope declared.2)
      fun declared v => v = declared.1 ∨ declared.2.HasVar v := by
  have before := Scope.holds_in_iff.1 starts
  unfold declareVar
  refine (Tracks.freshOne (P := fun _ => True) (fun _ => trivial) fun _ => ⟨rfl, rfl⟩).bind fun v _ => ?_
  cases declared : scope.declare? name.text (.var v) with
  | none =>
    refine .reported (.report _ _ _ _) fun _ => .pure ⟨before.2, rfl⟩ fun w isKnown => ?_
    exact isKnown.symm.imp (before.1 w) id
  | some scope' =>
    have new : Symbol.In (fun w => S w ∨ w = v) F (.var v) := Or.inr rfl
    have wider (symbol : Symbol) (isIn : symbol.In S F) : symbol.In (fun w => S w ∨ w = v) F := by
      cases symbol with
      | var w => exact Or.inl isIn
      | fn f => exact isIn
    have after := Scope.holds_in_iff.1 ((starts.mono wider).declare new declared)
    refine .pure ⟨after.2, Scope.fns_declare declared⟩ fun w isKnown => ?_
    rcases isKnown with rfl | isKnown
    · exact .inr rfl
    · exact after.1 w isKnown

/-- A bound statement and the scope behind it: jumps lead to the loops around it, and it
calls functions in `F`, which are still the ones in scope. -/
structure StmtTracked (F : Fn → Prop) (loops : List LoopLabels) (scope : Scope)
    (bound : Stmt × Scope) : Prop where
  jumps : bound.1.JumpsWithin loops
  calls : ∀ f ∈ bound.1.calls, F f
  scope : KeepsFns F scope bound.2

def stmtVars (bound : Stmt × Scope) (v : Var) : Prop := v ∈ bound.1.vars ∨ bound.2.HasVar v

theorem KeepsFns.trans {first second third : Scope} (one : KeepsFns F first second)
    (two : KeepsFns F second third) : KeepsFns F first third := ⟨two.only, two.same.trans one.same⟩

theorem KeepsFns.refl (starts : scope.Holds (Symbol.In S F)) : KeepsFns F scope scope :=
  ⟨(Scope.holds_in_iff.1 starts).2, rfl⟩

theorem declaration_tracks {keyword : Token} {name : Name} {type : Option TypeClause}
    {source : Source.Expr} (starts : scope.Holds (Symbol.In S F)) :
    Tracks Var.id S (declaration c scope keyword name type source) (StmtTracked F c.loops scope)
      stmtVars := by
  unfold declaration
  extract_lets rest
  have restTracks (declared : Option Ty) :
      Tracks Var.id S (rest declared) (StmtTracked F c.loops scope) stmtVars := by
    refine (value_gives starts source).before fun bound within => ?_
    refine (convert_gives within).before fun converted within => ?_
    refine (declareVar_tracks starts).bind fun declared keeps => ?_
    refine .pure ⟨trivial, within.calls, keeps⟩ fun v isKnown => ?_
    rcases isKnown with member | isKnown
    · rcases List.mem_cons.1 member with rfl | member
      · exact .inr (.inl rfl)
      · exact .inl (within.vars v member)
    · exact .inr (.inr isKnown)
  have typed (clause : TypeClause) : Gives (type? c.file clause) fun _ => True := by
    unfold type?
    cases Ty.ofName? clause.name.text with
    | none => exact .reported fun _ => .pure trivial
    | some t => exact .pure trivial
  cases type with
  | none =>
    exact Gives.before (P := fun _ => True) (.pure trivial) fun declared _ => restTracks declared
  | some clause => exact (typed clause).before fun declared _ => restTracks declared

theorem jump_gives {keyword : Token} :
    Gives (jump c keyword) fun s => s.JumpsWithin c.loops ∧ s.vars = [] ∧ s.calls = [] := by
  unfold jump
  cases c.loops with
  | nil => exact .reported fun _ => .pure ⟨trivial, rfl, rfl⟩
  | cons labels loops =>
    refine .pure ⟨⟨labels, List.mem_cons_self, ?_⟩, rfl, rfl⟩
    split <;> simp

theorem returnStmt_gives (known : Symbol → Prop) {keyword : TextRange} {bound : Option (TextRange × Expr)}
    (within : ∀ pair, bound = some pair → pair.2.Within known) :
    Gives (returnStmt c keyword bound) fun s => ∃ value, s = .ret value ∧
      ∀ e, value = some e → e.Within known := by
  unfold returnStmt
  cases c.function with
  | none =>
    refine .reported fun _ => .pure ⟨_, rfl, fun e equal => ?_⟩
    obtain ⟨pair, given, rfl⟩ := Option.map_eq_some_iff.1 equal
    exact within pair given
  | some f =>
    cases bound with
    | none =>
      dsimp only
      split
      · exact .reported fun _ => .pure ⟨none, rfl, nofun⟩
      · exact .pure ⟨none, rfl, nofun⟩
    | some pair =>
      have given := within pair rfl
      obtain ⟨range, e⟩ := pair
      dsimp only
      split
      · exact .reported fun _ => .pure ⟨some e, rfl, fun _ equal => Option.some.inj equal ▸ given⟩
      · refine (convert_gives given).bind fun converted within => .pure ⟨_, rfl, fun _ equal => ?_⟩
        exact Option.some.inj equal ▸ within

/-- What a return statement is bound to is one, whatever its value. -/
theorem returnStmt_isRet {keyword : TextRange} {bound : Option (TextRange × Expr)} :
    Gives (returnStmt c keyword bound) fun s => ∃ value, s = .ret value := by
  have within (pair : TextRange × Expr) (_ : bound = some pair) :
      pair.2.Within fun _ => True := ⟨fun _ _ => trivial, fun _ _ => trivial⟩
  intro S
  refine (returnStmt_gives _ within S).mono (fun _ => id) (fun s isRet => ?_) fun _ _ => .inr
  obtain ⟨value, equal, _⟩ := isRet
  exact ⟨value, equal⟩

theorem newLoop_tracks : Tracks Var.id S (Bind.fresh newLoop) (fun _ => True) fun _ _ => False :=
  .fresh (fun n => ⟨Nat.le_add_right n 2, trivial⟩) fun _ _ impossible => impossible.elim

/-- What is in scope behind a statement is known, and so is what was known before. -/
theorem holds_behind {T : Var → Prop} {scope' : Scope} (keeps : KeepsFns F scope scope')
    (vars : ∀ v, scope'.HasVar v → S v ∨ T v) :
    scope'.Holds (Symbol.In (fun v => S v ∨ T v) F) :=
  Scope.holds_in_iff.2 ⟨vars, keeps.only⟩

theorem StmtTracked.behind {loops : List LoopLabels} {bound : Stmt × Scope}
    (tracked : StmtTracked F loops scope bound) (S : Var → Prop) :
    bound.2.Holds (Symbol.In (fun v => S v ∨ stmtVars bound v) F) :=
  holds_behind tracked.scope fun _ isKnown => .inr (.inr isKnown)

structure BodyTracked (F : Fn → Prop) (loops : List LoopLabels) (scope : Scope)
    (bound : Body × Scope) : Prop where
  jumps : Stmt.AllJumpWithin loops bound.1
  calls : ∀ f ∈ Stmt.callsOf bound.1, F f
  scope : KeepsFns F scope bound.2

theorem BodyTracked.nil {loops : List LoopLabels} (starts : scope.Holds (Symbol.In S F)) :
    BodyTracked F loops scope ([], scope) :=
  ⟨trivial, fun _ member => absurd member List.not_mem_nil, .refl starts⟩

theorem StmtTracked.cons {loops : List LoopLabels} {bound : Stmt × Scope} {rest : Body × Scope}
    (first : StmtTracked F loops scope bound) (tracked : BodyTracked F loops bound.2 rest) :
    BodyTracked F loops scope (bound.1 :: rest.1, rest.2) :=
  ⟨⟨first.jumps, tracked.jumps⟩, List.forall_mem_append.2 ⟨first.calls, tracked.calls⟩,
    first.scope.trans tracked.scope⟩

theorem holds_more {T : Var → Prop} (starts : scope.Holds (Symbol.In S F)) :
    scope.Holds (Symbol.In (fun v => S v ∨ T v) F) :=
  Scope.holds_in_iff.2 ⟨fun v isKnown => .inl ((Scope.holds_in_iff.1 starts).1 v isKnown),
    (Scope.holds_in_iff.1 starts).2⟩

/-- A `return` that is bound, with what it mentions. -/
theorem ret_tracked {loops : List LoopLabels} {bound : Stmt}
    (starts : scope.Holds (Symbol.In S F))
    (given : ∃ value, bound = .ret value ∧ ∀ e, value = some e → e.Within (Symbol.In S F)) :
    StmtTracked F loops scope (bound, scope) := by
  obtain ⟨value, rfl, within⟩ := given
  cases value with
  | none => exact ⟨trivial, nofun, .refl starts⟩
  | some e => exact ⟨trivial, (within e rfl).calls, .refl starts⟩

theorem ret_vars {bound : Stmt} (starts : scope.Holds (Symbol.In S F))
    (given : ∃ value, bound = .ret value ∧ ∀ e, value = some e → e.Within (Symbol.In S F)) (v : Var)
    (isKnown : stmtVars (bound, scope) v) : S v := by
  obtain ⟨value, rfl, within⟩ := given
  rcases isKnown with member | isKnown
  · cases value with
    | none => contradiction
    | some e => exact (within e rfl).vars v member
  · exact (Scope.holds_in_iff.1 starts).1 v isKnown

mutual

theorem stmt_tracks {S : Var → Prop} {c : BindContext} {scope : Scope} (isGlobal : Bool)
    (starts : scope.Holds (Symbol.In S F)) (s : Source.Stmt) :
    Tracks Var.id S (stmt c isGlobal scope s) (StmtTracked F c.loops scope) stmtVars := by
  have before := Scope.holds_in_iff.1 starts
  cases s with
  | block m body =>
    refine (stmts_tracks starts.push body).bind fun bound tracked => ?_
    refine .pure ⟨tracked.jumps, tracked.calls, .refl starts⟩ fun v isKnown => ?_
    exact isKnown.symm.imp (before.1 v) .inl
  | declare m keyword name type source => exact declaration_tracks starts
  | ifThen m condition thenBody =>
    refine (valueOf_gives starts .bool condition).before fun condition within => ?_
    refine (stmt_tracks false starts thenBody).bind fun bound tracked => ?_
    refine .pure ⟨tracked.jumps, List.forall_mem_append.2 ⟨within.calls, tracked.calls⟩,
      tracked.scope⟩ fun v isKnown => ?_
    rcases isKnown with member | isKnown
    · exact (List.mem_append.1 member).imp (within.vars v) .inl
    · exact .inr (.inr isKnown)
  | ifElse m condition thenBody elseBody =>
    refine (valueOf_gives starts .bool condition).before fun condition within => ?_
    refine (stmt_tracks false starts thenBody).bind fun bound tracked => ?_
    refine (stmt_tracks false (tracked.behind _) elseBody).bind fun bound' tracked' => ?_
    refine .pure ⟨⟨tracked.jumps, tracked'.jumps⟩, ?_, tracked.scope.trans tracked'.scope⟩
      fun v isKnown => ?_
    · exact List.forall_mem_append.2 ⟨List.forall_mem_append.2 ⟨within.calls, tracked.calls⟩,
        tracked'.calls⟩
    · rcases isKnown with member | isKnown
      · rcases List.mem_append.1 member with member | member
        · rcases List.mem_append.1 member with member | member
          · exact .inl (.inl (within.vars v member))
          · exact .inl (.inr (.inl member))
        · exact .inr (.inl member)
      · exact .inr (.inr isKnown)
  | whileDo m condition body =>
    refine (valueOf_gives starts .bool condition).before fun condition within => ?_
    refine newLoop_tracks.bind fun labels _ => ?_
    refine (stmt_tracks false (holds_more starts) body).bind fun bound tracked => ?_
    refine .pure ⟨tracked.jumps, List.forall_mem_append.2 ⟨within.calls, tracked.calls⟩,
      tracked.scope⟩ fun v isKnown => ?_
    rcases isKnown with member | isKnown
    · exact (List.mem_append.1 member).imp (fun member => .inl (within.vars v member)) .inl
    · exact .inr (.inr isKnown)
  | doWhile m body condition =>
    refine newLoop_tracks.bind fun labels _ => ?_
    refine (stmt_tracks false (holds_more starts) body).bind fun bound tracked => ?_
    refine (valueOf_gives (tracked.behind fun v => S v ∨ False) .bool condition).before
      fun condition within => ?_
    refine .pure ⟨tracked.jumps, List.forall_mem_append.2 ⟨within.calls, tracked.calls⟩,
      tracked.scope⟩ fun v isKnown => ?_
    rcases isKnown with member | isKnown
    · exact (List.mem_append.1 member).elim (within.vars v) fun member => .inr (.inl member)
    · exact .inr (.inr isKnown)
  | forIn m name range body =>
    refine (loopRange_gives starts range).before fun range within => ?_
    refine (declareVar_tracks starts.push).bind fun declared keeps => ?_
    refine newLoop_tracks.bind fun labels _ => ?_
    refine (stmt_tracks false (holds_behind keeps fun v isKnown => Or.inl (Or.inr (Or.inr isKnown)))
      body).bind fun bound tracked => ?_
    refine .pure ⟨tracked.jumps, List.forall_mem_append.2 ⟨within.calls, tracked.calls⟩,
      .refl starts⟩ fun v isKnown => ?_
    rcases isKnown with member | isKnown
    · rcases List.mem_cons.1 member with rfl | member
      · exact .inl (.inl (.inr (.inl rfl)))
      · rcases List.mem_append.1 member with member | member
        · exact .inl (.inl (.inl (within.vars v member)))
        · exact .inr (.inl member)
    · exact .inl (.inl (.inl (before.1 v isKnown)))
  | jump keyword =>
    refine jump_gives.before fun bound given => ?_
    refine .pure ⟨given.1, by simp [given.2.2], .refl starts⟩ fun v isKnown => ?_
    rcases isKnown with member | isKnown
    · rw [given.2.1] at member
      contradiction
    · exact before.1 v isKnown
  | ret m keyword value =>
    cases value with
    | none =>
      refine (returnStmt_gives (Symbol.In S F) fun pair equal => by contradiction).before
        fun bound given => ?_
      exact .pure (ret_tracked starts given) fun v => ret_vars starts given v
    | some e =>
      refine (value_gives starts e).before fun bound within => ?_
      have same (pair : TextRange × Expr) (equal : some (e.textRange, bound) = some pair) :
          pair.2.Within (Symbol.In S F) := by
        obtain rfl := Option.some.inj equal
        exact within
      refine (returnStmt_gives _ same).before fun bound given => ?_
      exact .pure (ret_tracked starts given) fun v => ret_vars starts given v
  | expr m e =>
    refine (expr_gives starts e).before fun bound within => ?_
    have vars (v : Var) (isKnown : stmtVars (.expr bound, scope) v) : S v :=
      isKnown.elim (within.vars v) (before.1 v)
    dsimp only
    split
    · exact .reported (.report _ _ _ _) fun _ => .pure ⟨trivial, within.calls, .refl starts⟩ vars
    · exact .pure ⟨trivial, within.calls, .refl starts⟩ vars

theorem stmts_tracks {S : Var → Prop} {c : BindContext} {scope : Scope}
    (starts : scope.Holds (Symbol.In S F)) (ss : List Source.Stmt) :
    Tracks Var.id S (stmts c scope ss) (BodyTracked F c.loops scope)
      fun bound v => v ∈ Stmt.varsOf bound.1 ∨ bound.2.HasVar v := by
  cases ss with
  | nil =>
    refine .pure (.nil starts) fun v isKnown => ?_
    exact isKnown.elim nofun ((Scope.holds_in_iff.1 starts).1 v)
  | cons s ss =>
    refine (stmt_tracks false starts s).bind fun bound tracked => ?_
    refine (stmts_tracks (tracked.behind _) ss).bind fun rest trackedRest => ?_
    refine .pure (tracked.cons trackedRest) fun v isKnown => ?_
    rcases isKnown with member | isKnown
    · exact (List.mem_append.1 member).imp (fun member => .inr (.inl member)) .inl
    · exact .inr (.inr isKnown)

end

end Binding

end ScriptLang
