import ScriptLang.Proofs.BindingSites
import ScriptLang.Proofs.EmittedCode
import ScriptLang.Proofs.LoweredBodies

/-! An error expression gets into code that is bound without a report in one way only: a name stands
for a symbol whose type is lost, and what is made of it is passed over in silence. Where the names of
a function stand for no such symbol, its code has no error expression. -/

namespace ScriptLang

namespace Expr

mutual

def holdsError : Expr → Bool
  | error => true
  | literal _ | var _ => false
  | assign _ e | unary _ e | convert _ e => e.holdsError
  | binary l _ r | range l r => l.holdsError || r.holdsError
  | call _ args => anyHoldsError args

def anyHoldsError : List Expr → Bool
  | [] => false
  | e :: es => e.holdsError || anyHoldsError es

end

/-- The expression holds no error expression and is not taken for one. -/
structure IsClean (e : Expr) : Prop where
  noError : e.holdsError = false
  known : e.ty ≠ .error

theorem IsClean.isError {e : Expr} (clean : e.IsClean) : e.isError = false :=
  beq_false_of_ne clean.known

end Expr

def Stmt.holdsError : Stmt → Bool
  | .declare _ e | .expr e | .gotoIf _ e _ | .ret (some e) => e.holdsError
  | _ => false

namespace Binding

open Source (Token Name TypeClause)

variable {given : Prop} {file : Option String} {scope : Scope} {e : Expr}

theorem requireValue_clean {range : TextRange} (clean : given → e.IsClean) :
    Sound given (requireValue file range e) Expr.IsClean := by
  unfold requireValue
  split
  · exact Sound.refused rfl
  · exact .pure clean

theorem convert_clean {range : TextRange} {target : Ty} {allowExplicit : Bool}
    (clean : given → e.IsClean) :
    Sound given (convert file range e target allowExplicit) Expr.IsClean := by
  unfold convert
  split
  · exact .pure clean
  next proper =>
    have known : target ≠ .error := by
      rintro rfl
      simp at proper
    have converted (holds : given) : (Expr.convert target e).IsClean := ⟨(clean holds).noError, known⟩
    cases Conversion.classify e.ty target with
    | none => exact Sound.refused rfl
    | identity => exact .pure clean
    | implicit => exact .pure converted
    | explicit =>
      dsimp only
      split
      · exact Sound.refused rfl
      · exact .pure converted

theorem resolveVar_clean {name : Name}
    (known : given → ∀ symbol ∈ scope.lookup? name.text, symbol.IsKnown) :
    Sound given (resolveVar file scope name) fun v? => ∃ v, v? = some v ∧ v.ty ≠ .error := by
  unfold resolveVar
  cases found : scope.lookup? name.text with
  | none => exact Sound.refused rfl
  | some symbol =>
    cases symbol with
    | var v => exact .pure fun holds => ⟨v, rfl, known holds (.var v) found⟩
    | fn f => exact Sound.refused rfl

theorem unary_clean {op : Token} (clean : given → e.IsClean) :
    Sound given (unary file op e) Expr.IsClean := by
  unfold unary
  split
  next isError =>
    refine .pure fun holds => ?_
    rw [(clean holds).isError] at isError
    contradiction
  next =>
    cases resolved : UnaryOp.resolve? op.kind e.ty with
    | none => exact Sound.refused rfl
    | some o =>
      have member := List.mem_of_find?_eq_some resolved
      exact .pure fun holds => ⟨(clean holds).noError, (UnaryOp.result_of_mem member).2.2.1⟩

theorem binary_clean {op : Token} {kind : Source.Kind} {l r : Expr} (left : given → l.IsClean)
    (right : given → r.IsClean) : Sound given (binary file op kind l r) Expr.IsClean := by
  unfold binary
  split
  next isError =>
    refine .pure fun holds => ?_
    rw [(left holds).isError, (right holds).isError] at isError
    contradiction
  next =>
    cases resolved : BinaryOp.resolve? kind l.ty r.ty with
    | none => exact Sound.refused rfl
    | some o =>
      have known := (BinaryOp.result_of_mem (List.mem_of_find?_eq_some resolved)).2.2.2.1
      refine .pure fun holds => ⟨?_, known⟩
      simp [Expr.holdsError, (left holds).noError, (right holds).noError]

theorem assignTo_clean {op : Token} {range : TextRange} {v : Var} (known : given → v.ty ≠ .error)
    (clean : given → e.IsClean) : Sound given (assignTo file op range e v) Expr.IsClean := by
  have assigned {other : Prop} {e : Expr} (clean : other → e.IsClean) :
      Sound other (do return .assign v (← convert file range e v.ty false)) Expr.IsClean :=
    (convert_clean clean).bind fun _ => .pure fun holds => ⟨holds.2.noError, holds.2.known⟩
  unfold assignTo
  cases op.kind.compound? with
  | none => exact assigned clean
  | some kind =>
    refine (binary_clean (l := .var v) (fun holds => ⟨rfl, known holds⟩) clean).bind fun combined => ?_
    split
    next isError =>
      refine .pure fun holds => ?_
      rw [holds.2.isError] at isError
      contradiction
    next => exact assigned And.right

theorem assign_clean {target : Name} {op : Token} {range : TextRange}
    (known : given → ∀ symbol ∈ scope.lookup? target.text, symbol.IsKnown)
    (clean : given → e.IsClean) :
    Sound given (assign file scope target op range e) Expr.IsClean := by
  rw [assign_eq]
  refine (resolveVar_clean known).bind fun v? => ?_
  cases v? with
  | none =>
    refine .pure fun ⟨_, v, isNone, _⟩ => ?_
    contradiction
  | some v =>
    dsimp only
    split
    · refine Sound.reported rfl fun _ => ?_
      exact (assignTo_clean (v := v) False.elim False.elim).mono id fun _ _ _ => trivial
    · refine assignTo_clean ?_ fun holds => clean holds.1
      rintro ⟨_, w, isVar, typed⟩
      exact Option.some.inj isVar ▸ typed

theorem convertArgs_clean {sources : List Source.Expr} {args : List Expr} {ps : List Var}
    (clean : given → ∀ arg ∈ args, arg.IsClean) :
    Sound given (convertArgs file sources args ps) fun converted =>
      Expr.anyHoldsError converted = false := by
  induction sources generalizing args ps given with
  | nil => exact .pure fun _ => rfl
  | cons source sources ih =>
    cases args with
    | nil => exact .pure fun _ => rfl
    | cons arg args =>
      cases ps with
      | nil => exact .pure fun _ => rfl
      | cons p ps =>
        refine (convert_clean fun holds => clean holds arg List.mem_cons_self).bind fun first => ?_
        refine (ih fun holds b member => clean holds.1 b (List.mem_cons_of_mem _ member)).bind
          fun rest => .pure fun holds => ?_
        simp [Expr.anyHoldsError, holds.1.2.noError, holds.2]

theorem call_clean {range : TextRange} {callee : Name} {sources : List Source.Expr}
    {args : List Expr} (known : given → ∀ symbol ∈ scope.lookup? callee.text, symbol.IsKnown)
    (clean : given → ∀ arg ∈ args, arg.IsClean) :
    Sound given (call file scope range callee sources args) Expr.IsClean := by
  unfold call
  split
  · exact convert_clean fun holds => clean holds _ List.mem_cons_self
  · cases found : scope.lookup? callee.text with
    | none => exact Sound.refused rfl
    | some symbol =>
      cases symbol with
      | var v => exact Sound.refused rfl
      | fn f =>
        dsimp only
        split
        · exact Sound.refused rfl
        · refine (convertArgs_clean clean).bind fun converted => .pure fun holds => ?_
          exact ⟨holds.2, known holds.1 (.fn f) found⟩

mutual

theorem expr_clean {given : Prop} (e : Source.Expr)
    (known : given → ∀ name ∈ e.names, ∀ symbol ∈ scope.lookup? name, symbol.IsKnown) :
    Sound given (expr file scope e) Expr.IsClean := by
  cases e with
  | paren m inner => exact expr_clean inner known
  | literal m v => exact .pure fun _ => ⟨rfl, v.ty_ne.1⟩
  | name m name =>
    refine (resolveVar_clean fun holds => known holds _ List.mem_cons_self).bind fun v? => ?_
    cases v? with
    | none =>
      refine .pure fun ⟨_, v, isNone, _⟩ => ?_
      contradiction
    | some v =>
      refine .pure fun ⟨_, w, isVar, typed⟩ => ⟨rfl, ?_⟩
      exact Option.some.inj isVar ▸ typed
  | assign m target op value =>
    refine (expr_clean value fun holds name member =>
      known holds name (List.mem_cons_of_mem _ member)).bind fun bound => ?_
    refine (requireValue_clean And.right).bind fun bound' => ?_
    exact assign_clean (fun holds => known holds.1.1 _ List.mem_cons_self) And.right
  | unary m op operand =>
    refine (expr_clean operand known).bind fun bound => ?_
    exact (requireValue_clean And.right).bind fun bound' => unary_clean And.right
  | binary m left op right =>
    refine (expr_clean left fun holds name member =>
      known holds name (List.mem_append_left _ member)).bind fun l => ?_
    refine (requireValue_clean And.right).bind fun l' => ?_
    refine (expr_clean right fun holds name member =>
      known holds.1.1 name (List.mem_append_right _ member)).bind fun r => ?_
    refine (requireValue_clean And.right).bind fun r' => ?_
    exact binary_clean (fun holds => holds.1.1.2) And.right
  | range m lower upper =>
    refine (expr_clean lower fun holds name member =>
      known holds name (List.mem_append_left _ member)).bind fun l => ?_
    refine (requireValue_clean And.right).bind fun l' => ?_
    refine (expr_clean upper fun holds name member =>
      known holds.1.1 name (List.mem_append_right _ member)).bind fun u => ?_
    refine (requireValue_clean And.right).bind fun u' => ?_
    exact Sound.refused rfl
  | call m callee args =>
    refine (exprs_clean args fun holds name member =>
      known holds name (List.mem_cons_of_mem _ member)).bind fun bound => ?_
    exact call_clean (fun holds => known holds.1 _ List.mem_cons_self) And.right

theorem exprs_clean {given : Prop} (es : List Source.Expr)
    (known : given → ∀ name ∈ Source.Expr.namesOf es, ∀ symbol ∈ scope.lookup? name,
      symbol.IsKnown) :
    Sound given (exprs file scope es) fun bound => ∀ e ∈ bound, e.IsClean := by
  cases es with
  | nil => exact .pure fun _ => List.forall_mem_nil _
  | cons e es =>
    refine (expr_clean e fun holds name member =>
      known holds name (List.mem_append_left _ member)).bind fun bound => ?_
    refine (requireValue_clean And.right).bind fun bound' => ?_
    refine (exprs_clean es fun holds name member =>
      known holds.1.1 name (List.mem_append_right _ member)).bind fun rest => ?_
    exact .pure fun holds => List.forall_mem_cons.2 ⟨holds.1.2, holds.2⟩

end

theorem value_clean (e : Source.Expr)
    (known : given → ∀ name ∈ e.names, ∀ symbol ∈ scope.lookup? name, symbol.IsKnown) :
    Sound given (value file scope e) Expr.IsClean :=
  (expr_clean e known).bind fun _ => requireValue_clean And.right

theorem valueOf_clean (e : Source.Expr) (target : Ty)
    (known : given → ∀ name ∈ e.names, ∀ symbol ∈ scope.lookup? name, symbol.IsKnown) :
    Sound given (valueOf file scope target e) Expr.IsClean :=
  (value_clean e known).bind fun _ => convert_clean And.right

theorem loopRange_clean (e : Source.Expr)
    (known : given → ∀ name ∈ e.names, ∀ symbol ∈ scope.lookup? name, symbol.IsKnown) :
    Sound given (loopRange file scope e) fun range =>
      range.bounds.1.IsClean ∧ range.bounds.2.IsClean := by
  cases e with
  | range m lower upper =>
    have rest {other : Prop} (l : Expr) (stronger : other → given) (clean : other → l.IsClean) :
        Sound other (do
          let u ← valueOf file scope .int upper
          return Expr.range l u) fun range => range.bounds.1.IsClean ∧ range.bounds.2.IsClean :=
      (valueOf_clean upper .int fun holds name member =>
        known (stronger holds) name (List.mem_append_right _ member)).bind
          fun u => .pure fun holds => ⟨clean holds.1, holds.2⟩
    refine (value_clean lower fun holds name member =>
      known holds name (List.mem_append_left _ member)).bind fun l => ?_
    dsimp only
    split
    · exact Sound.reported rfl fun _ => (rest .error False.elim False.elim).mono id fun _ _ _ => trivial
    · exact rest l And.left And.right
  | _ => exact Sound.refused rfl

abbrev EmitsNoError (s : Stmt) : Prop := ∀ low, s.EmitsOnly (fun t => t.holdsError = false) low

abbrev AllEmitNoError (body : Body) : Prop :=
  ∀ low, Stmt.AllEmitOnly (fun t => t.holdsError = false) low body

theorem ofTests_of_clean {c : Expr} (clean : c.IsClean) :
    OfTests (fun t => t.holdsError = false) c := fun _ _ => clean.noError

theorem ofCounting_of_clean {v upper : Var} {range : Expr} (lower : range.bounds.1.IsClean)
    (upper' : range.bounds.2.IsClean) : OfCounting (fun t => t.holdsError = false) v upper range :=
  ⟨lower.noError, upper'.noError, fun _ _ => rfl, fun _ _ => rfl, rfl⟩

theorem declareVar_silent {given : Prop} (c : BindContext) (scope : Scope) (name : Name)
    (readOnly : Bool) (ty : Ty) (constant : Option Value) :
    Sound given (declareVar c scope name readOnly ty constant) fun _ => True :=
  (declareVar_sound False.elim False.elim False.elim).silent

theorem newLoop_silent {given : Prop} : Sound given (Bind.fresh newLoop) fun _ => True :=
  .fresh fun _ _ => trivial

theorem declaration_clean {c : BindContext} (keyword : Token) (name : Name)
    (type : Option TypeClause) (e : Source.Expr)
    (known : given → ∀ name ∈ e.names, ∀ symbol ∈ scope.lookup? name, symbol.IsKnown) :
    Sound given (declaration c scope keyword name type e) fun bound => EmitsNoError bound.1 := by
  rw [declaration_eq]
  have clause : Sound given (clauseType c.file type) fun _ => True := by
    cases type with
    | none => exact .pure fun _ => trivial
    | some clause => exact (type?_sound clause).mono id fun _ _ _ => trivial
  refine clause.bind fun declared => ?_
  refine (value_clean e fun holds => known holds.1).bind fun bound => ?_
  refine (convert_clean And.right).bind fun converted => ?_
  refine (declareVar_silent c scope name _ _ _).bind fun made => ?_
  exact .pure fun holds low => holds.1.2.noError

theorem returnStmt_clean {c : BindContext} {keyword : TextRange}
    {bound : Option (TextRange × Expr)} (clean : given → ∀ p ∈ bound, p.2.IsClean) :
    Sound given (returnStmt c keyword bound) EmitsNoError := by
  unfold returnStmt
  cases c.function with
  | none => exact Sound.refused rfl
  | some f =>
    cases bound with
    | none =>
      dsimp only
      split
      · exact Sound.refused rfl
      · exact .pure fun _ _ => rfl
    | some p =>
      dsimp only
      split
      · exact Sound.refused rfl
      · refine (convert_clean fun holds => clean holds p rfl).bind fun e => ?_
        exact .pure fun holds _ => holds.2.noError

mutual

/-- The induction goes from state to state, since the scopes of the sites do. -/
theorem stmt_clean {given : Prop} {c : BindContext} {scope : Scope} (isGlobal : Bool)
    (t : Source.Stmt) (s : BindState)
    (known : given → ∀ site ∈ stmtSites c scope s t, site.IsKnown) :
    SoundAt s given (stmt c isGlobal scope t) fun bound => EmitsNoError bound.1 := by
  cases t with
  | block m body =>
    exact (stmts_clean body s known).bind (.pure And.right)
  | declare m keyword name type e =>
    exact (declaration_clean keyword name type e fun holds =>
      known holds _ List.mem_cons_self).at s
  | ifThen m condition thenBody =>
    have known holds := List.forall_mem_cons.1 (known holds)
    refine ((valueOf_clean condition .bool fun holds => (known holds).1).at s).bind ?_
    refine (stmt_clean false thenBody _ fun holds => (known holds.1).2).bind ?_
    exact .pure fun holds low => ⟨ofTests_of_clean holds.1.2, holds.2 low⟩
  | ifElse m condition thenBody elseBody =>
    have known holds := List.forall_mem_cons.1 (known holds)
    have inBodies holds := List.forall_mem_append.1 (known holds).2
    refine ((valueOf_clean condition .bool fun holds => (known holds).1).at s).bind ?_
    refine (stmt_clean false thenBody _ fun holds => (inBodies holds.1).1).bind ?_
    refine (stmt_clean false elseBody _ fun holds => (inBodies holds.1.1).2).bind ?_
    exact .pure fun holds low => ⟨ofTests_of_clean holds.1.1.2, holds.1.2 low, holds.2 low⟩
  | whileDo m condition body =>
    have known holds := List.forall_mem_cons.1 (known holds)
    refine ((valueOf_clean condition .bool fun holds => (known holds).1).at s).bind ?_
    refine (newLoop_silent.at _).bind ?_
    refine (stmt_clean false body _ fun holds => (known holds.1.1).2).bind ?_
    exact .pure fun holds low => ⟨ofTests_of_clean holds.1.1.2, holds.2 low⟩
  | doWhile m body condition =>
    have known holds := List.forall_mem_append.1 (known holds)
    refine (newLoop_silent.at s).bind ?_
    refine (stmt_clean false body _ fun holds => (known holds.1).1).bind ?_
    refine ((valueOf_clean condition .bool fun holds =>
      List.forall_mem_singleton.1 (known holds.1.1).2).at _).bind ?_
    exact .pure fun holds low => ⟨ofTests_of_clean holds.2, holds.1.2 low⟩
  | forIn m name range body =>
    have known holds := List.forall_mem_cons.1 (known holds)
    refine ((loopRange_clean range fun holds => (known holds).1).at s).bind ?_
    refine ((declareVar_silent c scope.push name true .int none).at _).bind ?_
    refine (newLoop_silent.at _).bind ?_
    refine (stmt_clean false body _ fun holds => (known holds.1.1.1).2).bind ?_
    refine .pure fun holds low => ⟨fun n _ => ?_, holds.2 low⟩
    exact ofCounting_of_clean holds.1.1.1.2.1 holds.1.1.1.2.2
  | jump keyword =>
    have jumps : Sound given (jump c keyword) EmitsNoError := by
      unfold jump
      cases c.loops with
      | nil => exact Sound.refused rfl
      | cons labels loops => exact .pure fun _ _ => trivial
    exact (jumps.at s).bind (.pure And.right)
  | ret m keyword value =>
    cases value with
    | none =>
      have returns : Sound given (returnStmt c keyword none) EmitsNoError :=
        returnStmt_clean fun _ _ isNone => by contradiction
      exact (returns.at s).bind (.pure And.right)
    | some e =>
      refine ((value_clean e fun holds => known holds _ List.mem_cons_self).at s).bind ?_
      refine ((returnStmt_clean fun holds p isValue => ?_).at _).bind (.pure And.right)
      exact Option.some.inj isValue ▸ holds.2
  | expr m e =>
    refine ((expr_clean e fun holds => known holds _ List.mem_cons_self).at s).bind ?_
    dsimp only
    split
    · exact (Sound.refused rfl).at _
    · exact .pure fun holds low => holds.2.noError

theorem stmts_clean {given : Prop} {c : BindContext} {scope : Scope} (ts : List Source.Stmt)
    (s : BindState) (known : given → ∀ site ∈ stmtsSites c scope s ts, site.IsKnown) :
    SoundAt s given (stmts c scope ts) fun bound => AllEmitNoError bound.1 := by
  cases ts with
  | nil => exact .pure fun _ _ => trivial
  | cons t ts =>
    have known holds := List.forall_mem_append.1 (known holds)
    refine (stmt_clean false t s fun holds => (known holds).1).bind ?_
    refine (stmts_clean ts _ fun holds => (known holds.1).2).bind ?_
    exact .pure fun holds low => ⟨holds.1.2 low, holds.2 low⟩

end

theorem globals_clean {c : BindContext} (ts : List Source.Stmt) (s : BindState)
    (known : given → ∀ site ∈ globalsSites c scope s ts, site.IsKnown) :
    SoundAt s given (globals c scope ts) fun bound => AllEmitNoError bound.1 := by
  induction ts generalizing given scope s with
  | nil => exact .pure fun _ _ => trivial
  | cons t ts ih =>
    have known holds := List.forall_mem_append.1 (known holds)
    refine (stmt_clean true t s fun holds => (known holds).1).bind ?_
    refine (ih _ fun holds => (known holds.1).2).bind ?_
    exact .pure fun holds low => ⟨holds.1.2 low, holds.2 low⟩

/-- The bound body of the function with the sites, and what follows where all of them are known. -/
structure CleanWhereKnown (p : Fn × List Site) (q : Fn × Body) : Prop where
  same : p.1 = q.1
  clean : (∀ site ∈ p.2, site.IsKnown) → AllEmitNoError q.2

theorem functionBodies_clean {c : BindContext} (declared : List (Fn × Source.Function))
    (s : BindState) :
    SoundAt s given (functionBodies c scope declared)
      (List.Forall₂ CleanWhereKnown (functionsSites c scope s declared)) := by
  induction declared generalizing given s with
  | nil => exact .pure fun _ => .nil
  | cons p declared ih =>
    obtain ⟨fn, f⟩ := p
    let sites := stmtsSites { c with function := some fn } (bodyScope scope fn) s f.body
    have body : SoundAt s given (functionBody c scope fn f) fun body =>
        (∀ site ∈ sites, site.IsKnown) → AllEmitNoError body := by
      intro silent
      have clean := stmts_clean (c := { c with function := some fn }) f.body s
        (fun known : ∀ site ∈ sites, site.IsKnown => known)
      exact ⟨(clean silent).1, fun _ => (clean silent).2⟩
    refine body.bind ((ih _).bind (.pure fun holds => ?_))
    exact .cons ⟨rfl, holds.1.2⟩ holds.2

section

variable {scriptMode : Bool} {history : List Declarations} {u : Source.Unit} {next : Nat}

/-- In a unit without errors a function has no error expression where its names stand for nothing
whose type is lost. -/
theorem bindUnit_clean
    (noErrors :
      (bindUnit scriptMode file history u next).1.declarations.diagnostics.hasErrors = false)
    {q : Fn × Body} (member : q ∈ (bindUnit scriptMode file history u next).1.bodies) :
    ∃ p ∈ unitSites scriptMode file history u next, CleanWhereKnown p q := by
  obtain ⟨heads, statements, entry⟩ := silent_passes noErrors
  rcases mem_addEntry member with declared | ⟨e, isEntry, rfl, _⟩
  · obtain ⟨p, within, clean⟩ := exists_of_forall₂
      ((functionBodies_clean (headsPass file history u next).1.1 _ noErrors).2 trivial) declared
    exact ⟨p, List.mem_append_left _ within, clean⟩
  · have clean := globals_clean (c := unitContext scriptMode file u) u.statements
      (headsPass file history u next).2
      fun known : ∀ site ∈ entrySites scriptMode file history u next, site.IsKnown => known
    refine ⟨(e, entrySites scriptMode file history u next), ?_, rfl, (clean statements).2⟩
    refine List.mem_append_right _ (List.mem_map.2 ⟨e, Option.mem_toList.2 isEntry, rfl⟩)

end

end Binding

end ScriptLang
