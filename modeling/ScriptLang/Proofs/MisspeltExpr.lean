import ScriptLang.Proofs.AssignmentTypes
import ScriptLang.Proofs.BindingStmt
import ScriptLang.Proofs.ComparedBinding

/-! An expression is bound again with misspelt names in it, in a scope where types may be lost. Each of
the names is reported, and nothing else is. The other expression has the same type, or its type is lost,
which is taken for granted of plain assignments that are used as values. -/

namespace ScriptLang

/-- The functions are the same. Variables may have lost their types, and differ in what is known of
their values. -/
inductive Symbol.Spoilt : Symbol → Symbol → Prop
  | fn (f : Fn) : Symbol.Spoilt (.fn f) (.fn f)
  | var {v v' : Var} (readOnly : v'.readOnly = v.readOnly) (ty : v.ty.Spoilt v'.ty) :
    Symbol.Spoilt (.var v) (.var v')

/-- Names mean the same, up to lost types, and the unknown ones mean nothing. -/
structure Scope.Spoilt (unknown : String → Prop) (a b : Scope) : Prop where
  lookup : ∀ name, Option.Rel Symbol.Spoilt (a.lookup? name) (b.lookup? name)
  lookupLocal : ∀ name, Option.Rel Symbol.Spoilt (a.lookupLocal? name) (b.lookupLocal? name)
  unknown : ∀ name, unknown name → b.lookup? name = none ∧ Ty.ofName? name = none

namespace Binding

open Source (Token Name Misspelling)

/-- Bound forms of an expression and of a misspelt one. The type does not matter where they stand
alone. -/
structure Spoilt (alone : Bool) (e e' : Expr) : Prop where
  ty : alone = false → e.ty.Spoilt e'.ty
  stands : standsAlone e = true → standsAlone e' = true

/-- A mistake below is reported, and what it is part of is an error. -/
theorem Spoilt.error {alone : Bool} {e : Expr} : Spoilt alone e .error :=
  ⟨fun _ => .inr rfl, fun _ => rfl⟩

theorem Spoilt.anywhere {alone : Bool} {e e' : Expr} (spoilt : Spoilt false e e') :
    Spoilt alone e e' := ⟨fun _ => spoilt.ty rfl, spoilt.stands⟩

theorem Spoilt.refl (alone : Bool) (e : Expr) : Spoilt alone e e := ⟨fun _ => .inl rfl, id⟩

variable {file : Option String} {a b : Scope} {given : Prop} {unknown : String → Prop} {e e' : Expr}

theorem requireValue_reports {range range' : TextRange} (spoilt : given → Spoilt false e e') :
    Reports given [] (requireValue file range e) (requireValue file range' e') (Spoilt false) := by
  refine .of_given (requireValue_sound False.elim) fun holds => ?_
  have related := spoilt holds
  unfold requireValue
  by_cases isVoid : e.ty = .void
  · rw [if_pos isVoid]
    exact .of_refused rfl
  · have hasValue : e'.ty ≠ .void := by
      rcases related.ty rfl with same | lost
      · exact same ▸ isVoid
      · exact lost ▸ by decide
    rw [if_neg isVoid, if_neg hasValue]
    exact .pure fun _ => related

/-- A conversion without errors leaves the expression as it is, or wraps it. -/
theorem convert_reports_quiet {β : Type} {range : TextRange} {t : Ty} {explicit : Bool} {c : β}
    {R : Expr → β → Prop} (kept : R e c) (wrapped : R (.convert t e) c) :
    Reports given [] (convert file range e t explicit) (pure c) R := by
  unfold convert
  split
  · exact .pure fun _ => kept
  · split
    · exact .of_refused rfl
    · exact .pure fun _ => kept
    · exact .pure fun _ => wrapped
    · split
      · exact .of_refused rfl
      · exact .pure fun _ => wrapped

theorem convert_of_error {range : TextRange} {t : Ty} {explicit : Bool}
    (passes : e.ty = .error ∨ t = .error) : convert file range e t explicit = pure e := by
  unfold convert
  rw [if_pos (by simpa [Expr.isError] using passes)]

/-- A value is converted to the type of a variable, which may be lost. -/
theorem convert_reports {range range' : TextRange} {t t' : Ty} {explicit : Bool}
    (spoilt : given → Spoilt false e e') (target : given → t.Spoilt t') :
    Reports given [] (convert file range e t explicit) (convert file range' e' t' explicit)
      fun c c' => t' = t → Spoilt false c c' := by
  refine .of_given (convert_sound False.elim False.elim) fun holds => ?_
  have related := spoilt holds
  have wrapped (lost : e'.ty = .error) : Spoilt false (.convert t e) e' :=
    ⟨fun _ => .inr lost, fun stands => by simp [standsAlone] at stands⟩
  rcases related.ty rfl with same | lost
  · rcases target holds with rfl | lost
    · have both : Spoilt false (.convert t' e) (.convert t' e') :=
        ⟨fun _ => .inl rfl, fun stands => by simp [standsAlone] at stands⟩
      unfold convert Expr.isError
      rw [same]
      split
      · exact .pure fun _ _ => related
      · split
        · exact .of_refused rfl
        · exact .pure fun _ _ => related
        · exact .pure fun _ _ => both
        · split
          · exact .of_refused rfl
          · exact .pure fun _ _ => both
    · rw [convert_of_error (.inr lost)]
      by_cases same' : t' = t
      · rw [convert_of_error (.inr (same' ▸ lost))]
        exact .pure fun _ _ => related
      · exact convert_reports_quiet (fun isSame => (same' isSame).elim)
          fun isSame => (same' isSame).elim
  · rw [convert_of_error (.inl lost)]
    exact convert_reports_quiet (fun _ => related) fun _ => wrapped lost

/-- A value is converted to a type that is the same in both. -/
theorem convert_reports_same {range range' : TextRange} {t : Ty} {explicit : Bool}
    (spoilt : given → Spoilt false e e') :
    Reports given [] (convert file range e t explicit) (convert file range' e' t explicit)
      (Spoilt false) :=
  (convert_reports spoilt fun _ => .inl rfl).mono id fun _ _ _ related => related rfl

theorem unary_reports {op op' : Token} (kind : op'.kind = op.kind)
    (spoilt : given → Spoilt false e e') :
    Reports given [] (unary file op e) (unary file op' e') (Spoilt false) := by
  refine .of_given (unary_sound False.elim) fun holds => ?_
  unfold unary Expr.isError
  rw [kind]
  rcases (spoilt holds).ty rfl with same | lost
  · rw [same]
    split
    · exact .pure fun _ => .refl _ _
    · split
      · exact .pure fun _ => ⟨fun _ => .inl rfl, id⟩
      · exact .of_refused rfl
  · have isError : (e'.ty == .error) = true := by simp [lost]
    rw [if_pos isError]
    split
    · exact .pure fun _ => .refl _ _
    · split
      · exact .pure fun _ => .error
      · exact .of_refused rfl

theorem binary_of_error {op : Token} {kind : Source.Kind} {l r : Expr}
    (passes : l.ty = .error ∨ r.ty = .error) : binary file op kind l r = pure .error := by
  unfold binary
  rw [if_pos (by simpa [Expr.isError] using passes)]

theorem binary_reports {op op' : Token} {kind : Source.Kind} {l l' r r' : Expr}
    (left : given → l.ty.Spoilt l'.ty) (right : given → r.ty.Spoilt r'.ty) :
    Reports given [] (binary file op kind l r) (binary file op' kind l' r') (Spoilt false) := by
  refine .of_given (binary_sound False.elim False.elim) fun holds => ?_
  unfold binary Expr.isError
  by_cases same : l'.ty = l.ty ∧ r'.ty = r.ty
  · rw [same.1, same.2]
    split
    · exact .pure fun _ => .refl _ _
    · split
      · exact .pure fun _ => ⟨fun _ => .inl rfl, id⟩
      · exact .of_refused rfl
  · have lost : (l'.ty == .error || r'.ty == .error) = true := by
      rcases left holds with sameLeft | lost
      · rcases right holds with sameRight | lost
        · exact absurd ⟨sameLeft, sameRight⟩ same
        · simp [lost]
      · simp [lost]
    rw [if_pos lost]
    split
    · exact .pure fun _ => .refl _ _
    · split
      · exact .pure fun _ => .error
      · exact .of_refused rfl

inductive Resolved : Option Var → Option Var → Prop
  | known {v v' : Var} (readOnly : v'.readOnly = v.readOnly) (ty : v.ty.Spoilt v'.ty) :
    Resolved (some v) (some v')
  | unknown {v : Var} : Resolved (some v) none

theorem resolveVar_reports {ds : List Misspelling} {n n' : Name} (spelt : n.Misspelt .var ds n')
    (areUnknown : ∀ m ∈ ds, unknown m.name.text) (scopes : given → a.Spoilt unknown b) :
    Reports given (ds.map (·.report file)) (resolveVar file a n) (resolveVar file b n') Resolved := by
  refine .of_given (resolveVar_sound n) fun holds => ?_
  cases spelt with
  | same text =>
    have related := (scopes holds).lookup n.text
    unfold resolveVar
    rw [text]
    generalize a.lookup? n.text = inA at related ⊢
    generalize b.lookup? n.text = inB at related ⊢
    cases related with
    | none => exact .of_refused rfl
    | some symbols =>
      cases symbols with
      | fn f => exact .of_refused rfl
      | var readOnly ty => exact .pure fun _ => .known readOnly ty
  | other =>
    have missing := ((scopes holds).unknown n'.text (areUnknown _ List.mem_cons_self)).1
    unfold resolveVar
    rw [missing]
    cases a.lookup? n.text with
    | none => exact .of_refused rfl
    | some symbol =>
      cases symbol with
      | fn f => exact .of_refused rfl
      | var v => exact .report (.pure fun _ => .unknown)

/-- What is assigned does not matter where the assignment is lost. -/
theorem assigned_reports_quiet {alone : Bool} {range : TextRange} {v : Var} :
    Reports given [] (do return Expr.assign v (← convert file range e v.ty false)) (pure .error)
      (Spoilt alone) :=
  (convert_reports_quiet (R := fun _ _ => True) trivial trivial).behindQuiet (y := pure ())
    (g := fun _ => pure Expr.error) fun _ _ => .pure fun _ => Spoilt.error

theorem assignTo_reports_quiet {alone : Bool} {op : Token} {range : TextRange} {value : Expr}
    {v : Var} :
    Reports given [] (assignTo file op range value v) (pure .error) (Spoilt alone) := by
  unfold assignTo
  split
  · exact assigned_reports_quiet
  next kind _ =>
    unfold binary
    split
    · exact .pure fun _ => .error
    · split
      · rw [pure_bind]
        split
        · exact .pure fun _ => .error
        · exact assigned_reports_quiet
      · exact .of_refused rfl

/-- An assignment that combines the variable with the value is lost with the type of one of them. -/
theorem assignTo_of_error {op : Token} {kind : Source.Kind} {range : TextRange} {value : Expr}
    {v : Var} (compound : op.kind.compound? = some kind) (lost : v.ty = .error ∨ value.ty = .error) :
    assignTo file op range value v = pure .error := by
  have noOperator : binary file op kind (.var v) value = pure .error := binary_of_error lost
  simp [assignTo, compound, noOperator, Expr.isError, Expr.ty]

/-- A plain assignment is not used as a value here. -/
theorem assignTo_reports {alone : Bool} {op op' : Token} {range range' : TextRange}
    {value value' : Expr} {v v' : Var} (kind : op'.kind = op.kind) (ty : v.ty.Spoilt v'.ty)
    (isAlone : op.kind.compound? = none → alone = true) (spoilt : given → Spoilt false value value') :
    Reports given [] (assignTo file op range value v) (assignTo file op' range' value' v')
      (Spoilt alone) := by
  have assigned {c c' : Expr} (related : alone = false → Spoilt false c c') :
      Spoilt alone (.assign v c) (.assign v' c') :=
    ⟨fun isValue => (related isValue).ty rfl, fun _ => rfl⟩
  cases compound : op.kind.compound? with
  | none =>
    unfold assignTo
    rw [kind, compound]
    dsimp only
    refine (convert_reports spoilt fun _ => ty).bindQuiet fun c c' => .pure fun _ => ?_
    exact assigned fun isValue => absurd (isAlone compound) (by simp [isValue])
  | some k =>
    have compound' : op'.kind.compound? = some k := kind ▸ compound
    rcases ty with sameVar | lost
    · refine .of_given (assignTo_sound (v := v) False.elim False.elim False.elim) fun holds => ?_
      rcases (spoilt holds).ty rfl with sameValue | lost
      · -- No type is lost, so the same operator is applied.
        unfold assignTo
        rw [compound, compound']
        dsimp only
        have sameTarget : (Expr.var v).ty.Spoilt (Expr.var v').ty := .inl sameVar
        refine (binary_reports (fun _ => sameTarget) fun _ => .inl sameValue).bindQuiet
          fun c c' => ?_
        refine .of_given (Sound.mono (P := fun _ => True) ?_ id fun _ _ => id) fun combined => ?_
        · split
          · exact .pure fun _ => trivial
          · exact (convert_sound False.elim False.elim).bind fun _ => .pure fun _ => trivial
        unfold Expr.isError
        rcases combined.2.ty rfl with same | lost
        · rw [same]
          split
          · exact .pure fun _ => .refl _ _
          · rw [sameVar]
            refine (convert_reports_same fun _ => combined.2).bindQuiet fun c c' => ?_
            exact .pure fun holds => assigned fun _ => holds.2
        · have isLost : (c'.ty == .error) = true := by simp [lost]
          rw [if_pos isLost]
          split
          · exact .pure fun _ => .refl _ _
          · exact assigned_reports_quiet
      · rw [assignTo_of_error compound' (.inr lost)]
        exact assignTo_reports_quiet
    · rw [assignTo_of_error compound' (.inl lost)]
      exact assignTo_reports_quiet

theorem assign_reports {alone : Bool} {ds : List Misspelling} {target target' : Name}
    {op op' : Token} {range range' : TextRange} {value value' : Expr} (kind : op'.kind = op.kind)
    (spelt : target.Misspelt .var ds target') (areUnknown : ∀ m ∈ ds, unknown m.name.text)
    (isAlone : op.kind.compound? = none → alone = true) (scopes : given → a.Spoilt unknown b)
    (spoilt : given → Spoilt false value value') :
    Reports given (ds.map (·.report file)) (assign file a target op range value)
      (assign file b target' op' range' value') (Spoilt alone) := by
  have sound (v : Var) : Sound False (assignTo file op range value v) _ :=
    assignTo_sound (v := v) False.elim False.elim False.elim
  rw [assign_eq, assign_eq]
  refine (resolveVar_reports spelt areUnknown scopes).bindQuiet fun v? v'? => ?_
  cases v? with
  | none => exact .of_given (P := fun _ => True) (.pure fun _ => trivial) fun holds => by cases holds.2
  | some v =>
    dsimp only
    split
    · exact .of_reported rfl fun _ => (sound v).mono id fun _ _ _ => trivial
    next writable =>
      refine .of_given (sound v) fun holds => ?_
      cases holds.2 with
      | known readOnly ty =>
        dsimp only
        rw [if_neg (readOnly ▸ writable)]
        exact assignTo_reports kind ty isAlone fun _ => spoilt holds.1
      | unknown => exact assignTo_reports_quiet

theorem convertArgs_reports_quiet {β : Type} {sources : List Source.Expr} {args : List Expr}
    {ps : List Var} {c : β} :
    Reports given [] (convertArgs file sources args ps) (pure c) fun _ _ => True := by
  induction sources generalizing args ps given with
  | nil => exact .pure fun _ => trivial
  | cons source sources ih =>
    cases args with
    | nil => exact .pure fun _ => trivial
    | cons arg args =>
      cases ps with
      | nil => exact .pure fun _ => trivial
      | cons p ps =>
        refine (convert_reports_quiet (R := fun _ _ => True) trivial trivial).behindQuiet
          (y := pure c) (g := fun _ => pure c) fun first _ => ?_
        exact ih.behindQuiet (y := pure c) (g := fun _ => pure c) fun rest _ => .pure fun _ => trivial

theorem convertArgs_reports {sources sources' : List Source.Expr} {args args' : List Expr}
    {ps : List Var} (length : sources'.length = sources.length)
    (spoilt : List.Forall₂ (Spoilt false) args args') :
    Reports given [] (convertArgs file sources args ps) (convertArgs file sources' args' ps)
      fun _ _ => True := by
  induction spoilt generalizing sources sources' ps given with
  | nil =>
    have none (sources : List Source.Expr) : convertArgs file sources [] ps = pure [] := by
      cases sources <;> rfl
    rw [none, none]
    exact .pure fun _ => trivial
  | cons related _ ih =>
    cases sources with
    | nil =>
      obtain rfl := List.eq_nil_of_length_eq_zero length
      exact .pure fun _ => trivial
    | cons source sources =>
      cases sources' with
      | nil => contradiction
      | cons source' sources' =>
        cases ps with
        | nil => exact .pure fun _ => trivial
        | cons p ps =>
          refine (convert_reports_same fun _ => related).bindQuiet fun first first' => ?_
          exact (ih (Nat.succ.inj length)).bindQuiet fun _ _ => .pure fun _ => trivial

/-- Where the callee is lost, nothing else is reported. -/
theorem callFn_reports_quiet {scope : Scope} {range : TextRange} {callee : Name}
    {sources : List Source.Expr} {args : List Expr} {alone : Bool} :
    Reports given [] (callFn file scope range callee sources args) (pure .error) (Spoilt alone) := by
  unfold callFn
  split
  · split
    · exact .of_refused rfl
    · exact convertArgs_reports_quiet.behindQuiet (y := pure ()) (g := fun _ => pure Expr.error)
        fun _ _ => .pure fun _ => Spoilt.error
  · exact .of_refused rfl
  · exact .of_refused rfl

theorem callFn_reports {alone : Bool} {callee callee' : Name} {range range' : TextRange}
    {sources sources' : List Source.Expr} {args args' : List Expr} (text : callee'.text = callee.text)
    (length : sources'.length = sources.length) (scopes : a.Spoilt unknown b)
    (spoilt : List.Forall₂ (Spoilt false) args args') :
    Reports given [] (callFn file a range callee sources args)
      (callFn file b range' callee' sources' args') (Spoilt alone) := by
  have related := scopes.lookup callee.text
  unfold callFn
  rw [text]
  generalize a.lookup? callee.text = inA at related ⊢
  generalize b.lookup? callee.text = inB at related ⊢
  cases related with
  | none => exact .of_refused rfl
  | some symbols =>
    cases symbols with
    | var _ _ => exact .of_refused rfl
    | fn f =>
      dsimp only
      rw [spoilt.length_eq]
      split
      · exact .of_refused rfl
      · refine (convertArgs_reports length spoilt).bindQuiet fun _ _ => ?_
        exact .pure fun _ => ⟨fun _ => .inl rfl, fun _ => rfl⟩

theorem call_reports {alone : Bool} {ds : List Misspelling} {callee callee' : Name}
    {range range' : TextRange} {sources sources' : List Source.Expr} {args args' : List Expr}
    (spelt : callee.Misspelt .fn ds callee') (areUnknown : ∀ m ∈ ds, unknown m.name.text)
    (length : sources'.length = sources.length) (scopes : given → a.Spoilt unknown b)
    (spoilt : given → List.Forall₂ (Spoilt false) args args') :
    Reports given (ds.map (·.report file)) (call file a range callee sources args)
      (call file b range' callee' sources' args') (Spoilt alone) := by
  refine .of_given (call_sound False.elim False.elim) fun holds => ?_
  have allSpoilt := spoilt holds
  cases spelt with
  | same text =>
    by_cases conversion : IsConversion callee sources args
    · obtain ⟨⟨ty, named⟩, oneSource, oneArg⟩ := conversion
      obtain ⟨source, rfl⟩ := List.length_eq_one_iff.1 oneSource
      obtain ⟨arg, rfl⟩ := List.length_eq_one_iff.1 oneArg
      obtain ⟨source', rfl⟩ := List.length_eq_one_iff.1 length
      obtain ⟨arg', none, related, isNone, rfl⟩ := List.forall₂_cons_left_iff.1 allSpoilt
      obtain rfl := List.forall₂_nil_left_iff.1 isNone
      rw [call_of_conversion named, call_of_conversion (text ▸ named)]
      exact (convert_reports_same fun _ => related).mono id fun _ _ _ => Spoilt.anywhere
    · have other : ¬IsConversion callee' sources' args' := fun isConversion => conversion
        ⟨text ▸ isConversion.named, length ▸ isConversion.source,
          allSpoilt.length_eq ▸ isConversion.arg⟩
      rw [call_eq_callFn conversion, call_eq_callFn other]
      exact callFn_reports text length (scopes holds) allSpoilt
  | other =>
    have missing := (scopes holds).unknown callee'.text (areUnknown _ List.mem_cons_self)
    have other : ¬IsConversion callee' sources' args' := by
      rintro ⟨⟨ty, named⟩, _, _⟩
      rw [missing.2] at named
      contradiction
    rw [call_eq_callFn other]
    unfold callFn
    rw [missing.1]
    refine .report ?_
    by_cases conversion : IsConversion callee sources args
    · obtain ⟨⟨ty, named⟩, oneSource, oneArg⟩ := conversion
      obtain ⟨source, rfl⟩ := List.length_eq_one_iff.1 oneSource
      obtain ⟨arg, rfl⟩ := List.length_eq_one_iff.1 oneArg
      rw [call_of_conversion named]
      exact convert_reports_quiet .error .error
    · rw [call_eq_callFn conversion]
      exact callFn_reports_quiet

theorem length_of_allMisspelt {ds : List Misspelling} {es es' : List Source.Expr}
    (spelt : Source.Expr.AllMisspelt ds es es') : es'.length = es.length := by
  induction es generalizing ds es' with
  | nil => cases spelt; rfl
  | cons e es ih =>
    cases spelt with
    | cons _ rest => exact congrArg (· + 1) (ih rest)

/-- Where types are compared by themselves, expressions may be compared as if they stood alone. -/
theorem reports_of_types {ds : List Diagnostic} {alone : Bool} {e e' : Source.Expr}
    (reports : Reports given ds (expr file a e) (expr file b e') (Spoilt true))
    (types : (typeOf file a e).Spoilt (typeOf file b e')) :
    Reports given ds (expr file a e) (expr file b e') (Spoilt alone) := by
  intro s s' silent
  obtain ⟨before, rest⟩ := reports s s' silent
  refine ⟨before, fun holds same => ?_⟩
  obtain ⟨ids, items, related⟩ := rest holds same
  refine ⟨ids, items, fun _ => ?_, related.stands⟩
  rw [ty_expr, ty_expr]
  exact types

theorem assignment_reports {alone : Bool} {ds ds' : List Misspelling} {m m' : Source.Mark}
    {target target' : Name} {op op' : Token} {value value' : Source.Expr}
    (kind : op'.kind = op.kind) (spelt : target.Misspelt .var ds' target')
    (areUnknown : ∀ m ∈ ds', unknown m.name.text) (scopes : given → a.Spoilt unknown b)
    (first : Reports given (ds.map (·.report file)) (expr file a value) (expr file b value')
      (Spoilt false))
    (types : List.Forall₂ Ty.Spoilt
      (if alone || op.kind.compound?.isSome then [] else [typeOf file a (.assign m target op value)])
      (if alone || op'.kind.compound?.isSome then []
        else [typeOf file b (.assign m' target' op' value')])) :
    Reports given ((ds ++ ds').map (·.report file)) (expr file a (.assign m target op value))
      (expr file b (.assign m' target' op' value')) (Spoilt alone) := by
  have reports (other : Bool) (isAlone : op.kind.compound? = none → other = true) :
      Reports given ((ds ++ ds').map (·.report file)) (expr file a (.assign m target op value))
        (expr file b (.assign m' target' op' value')) (Spoilt other) := by
    unfold expr
    rw [List.map_append]
    refine first.bind fun c c' => (requireValue_reports And.right).behindQuiet fun c c' => ?_
    exact assign_reports kind spelt areUnknown isAlone (fun holds => scopes holds.1.1) And.right
  cases alone with
  | true => exact reports true fun _ => rfl
  | false =>
    cases compound : op.kind.compound? with
    | some k => exact reports false fun plain => by simp [compound] at plain
    | none =>
      have own : List.Forall₂ Ty.Spoilt [typeOf file a (.assign m target op value)]
          [typeOf file b (.assign m' target' op' value')] := by simpa [kind, compound] using types
      exact reports_of_types (reports true fun _ => rfl) (List.forall₂_cons.1 own).1

mutual

/-- Each misspelt name of an expression is reported, and nothing else. -/
theorem expr_reports {alone : Bool} {ds : List Misspelling} {e e' : Source.Expr} {given : Prop}
    (spelt : e.Misspelt ds e') (areUnknown : ∀ m ∈ ds, unknown m.name.text)
    (scopes : given → a.Spoilt unknown b)
    (types : List.Forall₂ Ty.Spoilt (plainTypes file a alone e) (plainTypes file b alone e')) :
    Reports given (ds.map (·.report file)) (expr file a e) (expr file b e') (Spoilt alone) := by
  cases spelt with
  | literal => exact .pure fun _ => .refl _ _
  | name spelt =>
    unfold expr
    refine (resolveVar_reports spelt areUnknown scopes).bindQuiet fun v? v'? => ?_
    refine .of_given (P := fun _ => True) ?_ fun holds => ?_
    · cases v? <;> exact .pure fun _ => trivial
    cases holds.2 with
    | known _ ty => exact .pure fun _ => ⟨fun _ => ty, fun stands => by simp [standsAlone] at stands⟩
    | unknown => exact .pure fun _ => .error
  | assign kind value target =>
    obtain ⟨inValue, inTarget⟩ := List.forall_mem_append.1 areUnknown
    obtain ⟨ofValue, own⟩ := forall₂_of_append types (length_plainTypes value false a b)
    exact assignment_reports kind target inTarget scopes (expr_reports value inValue scopes ofValue) own
  | unary kind spelt =>
    unfold expr
    refine (expr_reports spelt areUnknown scopes types).bindQuiet fun c c' => ?_
    refine (requireValue_reports And.right).bindQuiet fun c c' => ?_
    exact (unary_reports kind And.right).mono id fun _ _ _ => Spoilt.anywhere
  | binary kind left right =>
    obtain ⟨inLeft, inRight⟩ := List.forall_mem_append.1 areUnknown
    obtain ⟨ofLeft, ofRight⟩ := forall₂_of_append types (length_plainTypes left false a b)
    unfold expr
    rw [List.map_append]
    refine (expr_reports left inLeft scopes ofLeft).bind fun l l' => ?_
    refine (requireValue_reports And.right).behindQuiet fun l l' => ?_
    refine (expr_reports right inRight (fun holds => scopes holds.1.1) ofRight).bindQuiet fun r r' => ?_
    refine (requireValue_reports And.right).bindQuiet fun r r' => ?_
    rw [kind]
    exact (binary_reports (fun holds => holds.1.1.2.ty rfl) fun holds => holds.2.ty rfl).mono id
      fun _ _ _ => Spoilt.anywhere
  | range left right =>
    obtain ⟨inLeft, inRight⟩ := List.forall_mem_append.1 areUnknown
    obtain ⟨ofLeft, ofRight⟩ := forall₂_of_append types (length_plainTypes left false a b)
    unfold expr
    rw [List.map_append]
    refine (expr_reports left inLeft scopes ofLeft).bind fun l l' => ?_
    refine (requireValue_reports And.right).behindQuiet fun l l' => ?_
    refine (expr_reports right inRight (fun holds => scopes holds.1.1) ofRight).bindQuiet fun r r' => ?_
    refine (requireValue_reports And.right).bindQuiet fun r r' => ?_
    exact .of_refused rfl
  | paren spelt =>
    unfold expr
    exact expr_reports spelt areUnknown scopes types
  | call args callee =>
    obtain ⟨inArgs, inCallee⟩ := List.forall_mem_append.1 areUnknown
    unfold expr
    rw [List.map_append]
    refine (exprs_reports args inArgs scopes types).bind fun cs cs' => ?_
    exact call_reports callee inCallee (length_of_allMisspelt args) (fun holds => scopes holds.1)
      And.right

theorem exprs_reports {ds : List Misspelling} {es es' : List Source.Expr} {given : Prop}
    (spelt : Source.Expr.AllMisspelt ds es es') (areUnknown : ∀ m ∈ ds, unknown m.name.text)
    (scopes : given → a.Spoilt unknown b)
    (types : List.Forall₂ Ty.Spoilt (plainTypesOf file a es) (plainTypesOf file b es')) :
    Reports given (ds.map (·.report file)) (exprs file a es) (exprs file b es')
      (List.Forall₂ (Spoilt false)) := by
  cases spelt with
  | nil => exact .pure fun _ => .nil
  | cons first rest =>
    obtain ⟨inFirst, inRest⟩ := List.forall_mem_append.1 areUnknown
    obtain ⟨ofFirst, ofRest⟩ := forall₂_of_append types (length_plainTypes first false a b)
    unfold exprs
    rw [List.map_append]
    refine (expr_reports first inFirst scopes ofFirst).bind fun c c' => ?_
    refine (requireValue_reports And.right).behindQuiet fun c c' => ?_
    refine (exprs_reports rest inRest (fun holds => scopes holds.1.1) ofRest).bindQuiet fun cs cs' => ?_
    exact .pure fun holds => .cons holds.1.2 holds.2

end

theorem value_reports {ds : List Misspelling} {e e' : Source.Expr}
    (spelt : e.Misspelt ds e') (areUnknown : ∀ m ∈ ds, unknown m.name.text)
    (scopes : given → a.Spoilt unknown b)
    (types : List.Forall₂ Ty.Spoilt (plainTypes file a false e) (plainTypes file b false e')) :
    Reports given (ds.map (·.report file)) (value file a e) (value file b e') (Spoilt false) :=
  (expr_reports spelt areUnknown scopes types).bindQuiet fun _ _ => requireValue_reports And.right

theorem valueOf_reports {ds : List Misspelling} {e e' : Source.Expr} {t : Ty}
    (spelt : e.Misspelt ds e') (areUnknown : ∀ m ∈ ds, unknown m.name.text)
    (scopes : given → a.Spoilt unknown b)
    (types : List.Forall₂ Ty.Spoilt (plainTypes file a false e) (plainTypes file b false e')) :
    Reports given (ds.map (·.report file)) (valueOf file a t e) (valueOf file b t e') (Spoilt false) :=
  (value_reports spelt areUnknown scopes types).bindQuiet fun _ _ => convert_reports_same And.right

end Binding

end ScriptLang
