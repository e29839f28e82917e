import ScriptLang.Proofs.Silent
import ScriptLang.Proofs.Symbols
import ScriptLang.Proofs.Typing

/-! Where binding an expression reports nothing, the result is well typed, if the symbols in
scope are. -/

namespace ScriptLang

def Var.Assignable (v : Var) : Prop := v.readOnly = false

def Symbol.WellTyped : Symbol → Prop
  | .var v => v.WellTyped
  | .fn f => f.WellTyped

abbrev Scope.WellTyped (scope : Scope) : Prop := scope.Holds Symbol.WellTyped

structure Expr.IsValue (e : Expr) : Prop where
  hasValue : e.ty ≠ .void
  wellTyped : e.WellTyped Var.Assignable

theorem Expr.WellTyped.isError {assignable : Var → Prop} {e : Expr}
    (typed : e.WellTyped assignable) : e.isError = false := beq_false_of_ne typed.ty_ne_error

theorem Conversion.eq_of_identity {source target : Ty} (way : classify source target = .identity) :
    source = target := by
  cases source <;> cases target <;> first | rfl | contradiction

theorem Conversion.target_of_classify {source target : Ty}
    (way : classify source target = .implicit ∨ classify source target = .explicit) :
    target ≠ .void := by
  rintro rfl
  cases source <;> rcases way with way | way <;> contradiction

namespace Binding

open Source (Token Name)

variable {given : Prop} {file : Option String} {scope : Scope}

theorem requireValue_sound {range : TextRange} {bound : Expr}
    (typed : given → bound.WellTyped Var.Assignable) :
    Sound given (requireValue file range bound) Expr.IsValue := by
  unfold requireValue
  split
  · exact Sound.refused rfl
  next hasValue => exact .pure fun holds => ⟨hasValue, typed holds⟩

theorem convert_sound {range : TextRange} {e : Expr} {target : Ty} {allowExplicit : Bool}
    (isValue : given → e.IsValue) (known : given → target ≠ .error) :
    Sound given (convert file range e target allowExplicit) (Expr.Fits Var.Assignable target) := by
  unfold convert
  split
  next isError =>
    refine .pure fun holds => ?_
    have noError := (isValue holds).wellTyped.isError
    have noTarget := known holds
    simp_all
  next =>
    cases way : Conversion.classify e.ty target with
    | none => exact Sound.refused rfl
    | identity =>
      exact .pure fun holds => ⟨Conversion.eq_of_identity way, (isValue holds).hasValue,
        (isValue holds).wellTyped⟩
    | implicit =>
      exact .pure fun holds => ⟨rfl, Conversion.target_of_classify (.inl way), .inl way,
        known holds, (isValue holds).hasValue, (isValue holds).wellTyped⟩
    | explicit =>
      dsimp only
      split
      · exact Sound.refused rfl
      · exact .pure fun holds => ⟨rfl, Conversion.target_of_classify (.inr way), .inr way,
          known holds, (isValue holds).hasValue, (isValue holds).wellTyped⟩

theorem resolveVar_sound (name : Name) :
    Sound given (resolveVar file scope name) fun v? =>
      scope.WellTyped → ∃ v, v? = some v ∧ v.WellTyped := by
  unfold resolveVar
  cases found : scope.lookup? name.text with
  | none => exact Sound.refused rfl
  | some symbol =>
    cases symbol with
    | var v => exact .pure fun _ wellTyped => ⟨v, rfl, wellTyped.lookup found⟩
    | fn f => exact Sound.refused rfl

theorem unary_sound {op : Token} {operand : Expr} (isValue : given → operand.IsValue) :
    Sound given (unary file op operand) (Expr.WellTyped Var.Assignable) := by
  unfold unary
  split
  next isError =>
    refine .pure fun holds => ?_
    rw [(isValue holds).wellTyped.isError] at isError
    contradiction
  next =>
    cases resolved : UnaryOp.resolve? op.kind operand.ty with
    | none => exact Sound.refused rfl
    | some o =>
      have fits := List.find?_some resolved
      exact .pure fun holds => ⟨List.mem_of_find?_eq_some resolved, by simp_all,
        (isValue holds).wellTyped⟩

theorem binary_sound {op : Token} {kind : Source.Kind} {left right : Expr}
    (leftTyped : given → left.WellTyped Var.Assignable)
    (rightTyped : given → right.WellTyped Var.Assignable) :
    Sound given (binary file op kind left right) Expr.IsValue := by
  unfold binary
  split
  next isError =>
    refine .pure fun holds => ?_
    rw [(leftTyped holds).isError, (rightTyped holds).isError] at isError
    contradiction
  next =>
    cases resolved : BinaryOp.resolve? kind left.ty right.ty with
    | none => exact Sound.refused rfl
    | some o =>
      have member := List.mem_of_find?_eq_some resolved
      have fits := List.find?_some resolved
      exact .pure fun holds => ⟨(BinaryOp.result_of_mem member).2.2.2.2, member,
        ⟨by simp_all, leftTyped holds⟩, by simp_all, rightTyped holds⟩

/-- An assignment to a variable that is known. -/
theorem assignTo_sound {op : Token} {range : TextRange} {value : Expr} {v : Var}
    (isValue : given → value.IsValue) (assignable : given → v.Assignable)
    (wellTyped : given → v.WellTyped) :
    Sound given
      (match op.kind.compound? with
      | none => do return .assign v (← convert file range value v.ty false)
      | some kind => do
        let combined ← binary file op kind (.var v) value
        if combined.isError then return .error
        else return .assign v (← convert file range combined v.ty false))
      (Expr.WellTyped Var.Assignable) := by
  have finish {other : Prop} {e : Expr} (stronger : other → given) (isValue : other → e.IsValue) :
      Sound other (do return .assign v (← convert file range e v.ty false))
        (Expr.WellTyped Var.Assignable) :=
    (convert_sound isValue fun holds => (wellTyped (stronger holds)).known).bind fun _ =>
      .pure fun ⟨holds, fits⟩ => ⟨assignable (stronger holds), wellTyped (stronger holds), fits.ty,
        fits.hasValue, fits.wellTyped⟩
  cases op.kind.compound? with
  | none => exact finish id isValue
  | some kind =>
    refine (binary_sound wellTyped fun holds => (isValue holds).wellTyped).bind fun combined => ?_
    split
    next isError =>
      refine .pure fun holds => ?_
      rw [holds.2.wellTyped.isError] at isError
      contradiction
    next => exact finish And.left And.right

theorem assign_sound {target : Name} {op : Token} {range : TextRange} {value : Expr}
    (isValue : given → value.IsValue) (wellTyped : given → scope.WellTyped) :
    Sound given (assign file scope target op range value) (Expr.WellTyped Var.Assignable) := by
  unfold assign
  refine (resolveVar_sound target).bind fun v? => ?_
  cases v? with
  | none =>
    refine .pure fun ⟨holds, resolved⟩ => ?_
    obtain ⟨v, equal, _⟩ := resolved (wellTyped holds)
    contradiction
  | some v =>
    dsimp only
    split
    next readOnly =>
      exact Sound.reported rfl fun _ =>
        (assignTo_sound False.elim False.elim False.elim).mono id fun _ _ _ => trivial
    next readOnly =>
      refine assignTo_sound (fun holds => isValue holds.1) (fun _ => Bool.eq_false_iff.2 readOnly)
        fun ⟨holds, resolved⟩ => ?_
      obtain ⟨w, equal, typed⟩ := resolved (wellTyped holds)
      exact Option.some.inj equal ▸ typed

/-- Arguments that are bound already, one for each of their sources. -/
structure ArgsBound (sources : List Source.Expr) (args : List Expr) : Prop where
  length : sources.length = args.length
  values : ∀ arg ∈ args, arg.IsValue

theorem convertArgs_sound {sources : List Source.Expr} {args : List Expr} {ps : List Var}
    (bound : given → ArgsBound sources args) (sameLength : given → args.length = ps.length)
    (known : given → ∀ p ∈ ps, p.WellTyped) :
    Sound given (convertArgs file sources args ps)
      (fun converted => Expr.ArgsFit Var.Assignable converted ps) := by
  induction sources generalizing args ps given with
  | nil =>
    refine .pure fun holds => ?_
    have length := (bound holds).length
    have sameLength := sameLength holds
    cases args <;> cases ps <;> simp_all [Expr.ArgsFit]
  | cons source sources ih =>
    cases args with
    | nil => exact .pure fun holds => absurd (bound holds).length (by simp)
    | cons arg args =>
      cases ps with
      | nil => exact .pure fun holds => absurd (sameLength holds) (by simp)
      | cons p ps =>
        refine (convert_sound (fun holds => (bound holds).values arg List.mem_cons_self)
          fun holds => (known holds p List.mem_cons_self).known).bind fun first => ?_
        refine (ih (fun ⟨holds, _⟩ => ?_) (fun ⟨holds, _⟩ => ?_) fun ⟨holds, _⟩ => ?_).bind
          fun rest => .pure fun ⟨⟨_, fits⟩, restFit⟩ =>
            ⟨⟨fits.ty, fits.hasValue, fits.wellTyped⟩, restFit⟩
        · exact ⟨Nat.succ.inj (bound holds).length,
            fun b member => (bound holds).values b (List.mem_cons_of_mem _ member)⟩
        · exact Nat.succ.inj (sameLength holds)
        · exact fun q member => known holds q (List.mem_cons_of_mem _ member)

theorem call_sound {range : TextRange} {callee : Name} {sources : List Source.Expr}
    {args : List Expr} (bound : given → ArgsBound sources args)
    (wellTyped : given → scope.WellTyped) :
    Sound given (call file scope range callee sources args)
      (Expr.WellTyped Var.Assignable) := by
  unfold call
  split
  next ty source arg named =>
    refine (convert_sound (fun holds => (bound holds).values arg List.mem_cons_self) ?_).mono id
      fun _ _ fits => fits.wellTyped
    rintro _ rfl
    exact Ty.ofName?_ne_error named
  next =>
    cases found : scope.lookup? callee.text with
    | none => exact Sound.refused rfl
    | some symbol =>
      cases symbol with
      | var v => exact Sound.refused rfl
      | fn f =>
        have known (holds : given) : f.WellTyped := (wellTyped holds).lookup found
        dsimp only
        split
        · exact Sound.refused rfl
        next sameLength =>
          refine (convertArgs_sound bound (fun _ => Decidable.not_not.1 sameLength)
            fun holds => (known holds).parameters).bind fun converted =>
              .pure fun ⟨holds, fit⟩ => ⟨known holds, fit⟩

mutual

theorem expr_sound {given : Prop} (wellTyped : given → scope.WellTyped) (e : Source.Expr) :
    Sound given (expr file scope e) (Expr.WellTyped Var.Assignable) := by
  cases e with
  | paren m inner => exact expr_sound wellTyped inner
  | literal m v => exact .pure fun _ => trivial
  | name m name =>
    refine (resolveVar_sound name).bind fun v? => ?_
    cases v? with
    | none =>
      refine .pure fun ⟨holds, resolved⟩ => ?_
      obtain ⟨v, equal, _⟩ := resolved (wellTyped holds)
      contradiction
    | some v =>
      refine .pure fun ⟨holds, resolved⟩ => ?_
      obtain ⟨w, equal, typed⟩ := resolved (wellTyped holds)
      exact Option.some.inj equal ▸ typed
  | assign m target op value =>
    refine (expr_sound wellTyped value).bind fun bound => ?_
    refine (requireValue_sound And.right).bind fun bound' => ?_
    exact assign_sound And.right fun holds => wellTyped holds.1.1
  | unary m op operand =>
    refine (expr_sound wellTyped operand).bind fun bound => ?_
    refine (requireValue_sound And.right).bind fun bound' => ?_
    exact unary_sound And.right
  | binary m left op right =>
    refine (expr_sound wellTyped left).bind fun l => ?_
    refine (requireValue_sound And.right).bind fun l' => ?_
    refine (expr_sound (fun holds => wellTyped holds.1.1) right).bind fun r => ?_
    refine (requireValue_sound And.right).bind fun r' => ?_
    exact (binary_sound (fun holds => holds.1.1.2.wellTyped) fun holds => holds.2.wellTyped).mono
      id fun _ _ isValue => isValue.wellTyped
  | range m lower upper =>
    refine (expr_sound wellTyped lower).bind fun l => ?_
    refine (requireValue_sound And.right).bind fun l' => ?_
    refine (expr_sound (fun holds => wellTyped holds.1.1) upper).bind fun u => ?_
    refine (requireValue_sound And.right).bind fun u' => ?_
    exact Sound.refused rfl
  | call m callee args =>
    refine (exprs_sound wellTyped args).bind fun bound => ?_
    exact call_sound And.right fun holds => wellTyped holds.left

theorem exprs_sound {given : Prop} (wellTyped : given → scope.WellTyped)
    (es : List Source.Expr) :
    Sound given (exprs file scope es) (ArgsBound es) := by
  cases es with
  | nil => exact .pure fun _ => ⟨rfl, fun _ member => absurd member List.not_mem_nil⟩
  | cons e es =>
    refine (expr_sound wellTyped e).bind fun bound => ?_
    refine (requireValue_sound And.right).bind fun bound' => ?_
    refine (exprs_sound (fun holds => wellTyped holds.1.1) es).bind fun rest => ?_
    exact .pure fun ⟨⟨_, isValue⟩, args⟩ =>
      ⟨congrArg Nat.succ args.length, List.forall_mem_cons.2 ⟨isValue, args.values⟩⟩

end

theorem value_sound (wellTyped : given → scope.WellTyped) (e : Source.Expr) :
    Sound given (value file scope e) Expr.IsValue :=
  (expr_sound wellTyped e).bind fun _ => requireValue_sound And.right

theorem valueOf_sound (wellTyped : given → scope.WellTyped) {target : Ty}
    (known : target ≠ .error) (e : Source.Expr) :
    Sound given (valueOf file scope target e) (Expr.Fits Var.Assignable target) :=
  (value_sound wellTyped e).bind fun _ => convert_sound And.right fun _ => known

end Binding

end ScriptLang
