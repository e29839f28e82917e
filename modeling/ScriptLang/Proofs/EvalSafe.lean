import ScriptLang.Proofs.Mentions
import ScriptLang.Proofs.TypedState

/-! Evaluating a well-typed expression in a typed state gives a value of its type, if the
functions that it calls keep to theirs. -/

namespace ScriptLang

/-- A function that returns something gives a value of the type it returns. -/
def Fn.Gives (f : Fn) (r : Option Value) : Prop :=
  f.returns ≠ .void → ∃ value, r = some value ∧ value.HasType f.returns

abbrev FitsAll : List Var → List Value → Prop :=
  List.Forall₂ fun (p : Var) (value : Value) => value.HasType p.ty

theorem UnaryOp.operand_ne_void {op : UnaryOp} (member : op ∈ table) : op.operand ≠ .void := by
  revert op
  decide

theorem BinaryOp.operands_ne_void {op : BinaryOp} (member : op ∈ table) :
    op.left ≠ .void ∧ op.right ≠ .void := by
  revert op
  decide

variable {known : Var → Prop}

theorem allowed_of_no_defect {f : Fault} (noDefect : ∀ d, f ≠ .defect d) :
    Stop.Allowed (.fault f) := by
  intro d equal
  exact absurd (Stop.fault.inj equal) (noDefect d)

theorem Value.eq_int {value : Value} (hasType : value.HasType .int) : ∃ n, value = .int n := by
  cases value with
  | int n => exact ⟨n, rfl⟩
  | _ => exact absurd (hasType.ty_eq (by decide)) (by simp [Value.ty])

/-- A builtin that is called as it is declared gives what it says. -/
theorem Builtin.run_keeps {f : Fn} {b : Builtin} {args : List Value} (wellTyped : f.WellTyped)
    (isBuiltin : f.builtin = some b) (fit : FitsAll f.parameters args) :
    Keeps known (b.run args) f.Gives := by
  obtain ⟨types, returns⟩ := wellTyped.builtin b isBuiltin
  have length := fit.length_eq
  have sameLength := congrArg List.length types
  simp only [List.length_map] at sameLength
  cases b with
  | print =>
    obtain ⟨v, rfl⟩ := List.length_eq_one_iff.1 (length.symm.trans sameLength)
    refine Keeps.bind (P := fun _ => True) (.modify (fun _ => ⟨rfl, rfl⟩) trivial) fun _ _ => ?_
    exact .pure fun hasValue => absurd returns hasValue
  | input =>
    obtain rfl := List.length_eq_zero_iff.1 (length.symm.trans sameLength)
    refine .get_bind fun s => ?_
    cases s.host.readLine? with
    | none => exact .fault (allowed_of_no_defect fun d => by simp)
    | some next =>
      refine Keeps.bind (P := fun _ => True) (.modify (fun _ => ⟨rfl, rfl⟩) trivial)
        fun _ _ => ?_
      exact .pure fun _ => ⟨_, rfl, .inr returns.symm⟩
  | rnd =>
    obtain ⟨v, rfl⟩ := List.length_eq_one_iff.1 (length.symm.trans sameLength)
    obtain ⟨p, single⟩ := List.length_eq_one_iff.1 sameLength
    rw [single] at fit types
    have isInt : p.ty = .int := by simpa [Builtin.parameters] using types
    obtain ⟨max, rfl⟩ := Value.eq_int (isInt ▸ (List.forall₂_cons.1 fit).1)
    refine .get_bind fun s => ?_
    refine Keeps.bind (P := fun _ => True) (.modify (fun _ => ⟨rfl, rfl⟩) trivial) fun _ _ => ?_
    exact .pure fun _ => ⟨_, rfl, .inr returns.symm⟩

/-- What evaluation relies on: known variables are told apart by their numbers, and functions
that are not builtins keep to their types where they are called. -/
structure CallsKeep (known : Var → Prop) (callable : Fn → Prop) (invoke : Invoke) : Prop where
  unique : ToldApart known
  invoke : ∀ f args, f.builtin = none → callable f → FitsAll f.parameters args →
    Keeps known (invoke f args) f.Gives

variable {callable : Fn → Prop} {invoke : Invoke} {assignable : Var → Prop}

theorem Fn.apply_keeps (calls : CallsKeep known callable invoke) {f : Fn} {args : List Value}
    (wellTyped : f.WellTyped) (isCallable : callable f) (fit : FitsAll f.parameters args) :
    Keeps known (f.apply invoke args) f.Gives := by
  unfold Fn.apply
  cases isBuiltin : f.builtin with
  | none => exact calls.invoke f args isBuiltin isCallable fit
  | some b => exact Builtin.run_keeps wellTyped isBuiltin fit

namespace Expr

theorem ofExcept_unary {op : UnaryOp} (member : op ∈ UnaryOp.table) {value : Value}
    (typed : value.ty = op.operand) :
    Keeps known (Run.ofExcept (op.action.apply value)) fun result => result.HasType op.result := by
  obtain ⟨result, equal, resultTyped⟩ := UnaryOp.apply_of_mem member typed
  rw [equal]
  exact .pure (.inr resultTyped)

theorem ofExcept_binary {op : BinaryOp} (member : op ∈ BinaryOp.table) {left right : Value}
    (leftTyped : left.ty = op.left) (rightTyped : right.ty = op.right) :
    Keeps known (Run.ofExcept (op.action.apply left right)) fun result =>
      result.HasType op.result := by
  rcases BinaryOp.apply_of_mem member leftTyped rightTyped with ⟨result, equal, typed⟩ | equal
  · rw [equal]
    exact .pure (.inr typed)
  · rw [equal]
    exact .fault (allowed_of_no_defect fun d => by simp [OperatorFault.toFault])

theorem ofExcept_convert (value : Value) (t : Ty) :
    Keeps known (Run.ofExcept (value.convert t)) fun result => result.HasType t := by
  unfold Value.convert
  cases given : value.convert? t with
  | some converted => exact .pure (Value.convert?_hasType given)
  | none => exact .fault (allowed_of_no_defect fun d => by simp [OperatorFault.toFault])

/-- An expression whose type is one of values is no call of a `void` function. -/
theorem not_void_call {e : Expr} (hasValue : e.ty ≠ .void) (f : Fn) (args : List Expr)
    (isCall : e = call f args) : f.returns ≠ .void := by
  subst isCall
  exact hasValue

mutual

theorem eval_keeps (invokes : CallsKeep known callable invoke) {e : Expr}
    (typed : e.WellTyped assignable) (vars : ∀ v ∈ e.vars, known v)
    (calls : ∀ f ∈ e.calls, callable f)
    (hasValue : ∀ f args, e = call f args → f.returns ≠ .void) :
    Keeps known (e.eval invoke) fun value => value.HasType e.ty := by
  cases e with
  | error | range => exact typed.elim
  | literal value => exact .pure (.inr rfl)
  | var v =>
    simp only [eval]
    cases given : v.constant with
    | some value => exact .pure (Var.WellTyped.constant typed value given)
    | none => exact .read invokes.unique (vars v List.mem_cons_self)
  | assign v e =>
    obtain ⟨_, _, same, notVoid, inner⟩ := typed
    obtain ⟨isKnown, varsE⟩ := List.forall_mem_cons.1 vars
    refine (eval_keeps invokes inner varsE calls (not_void_call notVoid)).bind
      fun value hasType => ?_
    exact (Keeps.write isKnown (same ▸ hasType)).bind fun _ _ => .pure hasType
  | unary op e =>
    have constant (value : Value) := @WellTyped.constant_hasType _ _ typed value
    obtain ⟨member, same, inner⟩ := typed
    simp only [eval]
    cases given : (unary op e).constant? with
    | some value => exact .pure (constant value given)
    | none =>
      have notVoid : e.ty ≠ .void := same ▸ UnaryOp.operand_ne_void member
      refine (eval_keeps invokes inner vars calls (not_void_call notVoid)).bind
        fun value hasType => ?_
      exact ofExcept_unary member ((same ▸ hasType).ty_eq (UnaryOp.result_of_mem member).1)
  | binary l op r =>
    have constant (value : Value) := @WellTyped.constant_hasType _ _ typed value
    obtain ⟨member, ⟨sameL, typedL⟩, sameR, typedR⟩ := typed
    obtain ⟨varsL, varsR⟩ := List.forall_mem_append.1 vars
    obtain ⟨callsL, callsR⟩ := List.forall_mem_append.1 calls
    have notVoid := BinaryOp.operands_ne_void member
    have proper := BinaryOp.result_of_mem member
    simp only [eval]
    cases given : (binary l op r).constant? with
    | some value => exact .pure (constant value given)
    | none =>
      refine (eval_keeps invokes typedL varsL callsL (not_void_call (sameL ▸ notVoid.1))).bind
        fun left leftTyped => ?_
      cases decided : op.action.shortCircuit? left with
      | some b =>
        have decisive := Option.isSome_of_eq_some (Option.filter_eq_some_iff.1 decided).1
        exact .pure (.inr (BinaryOp.result_of_decisive member decisive).symm)
      | none =>
        refine (eval_keeps invokes typedR varsR callsR (not_void_call (sameR ▸ notVoid.2))).bind
          fun right rightTyped => ?_
        exact ofExcept_binary member ((sameL ▸ leftTyped).ty_eq proper.1)
          ((sameR ▸ rightTyped).ty_eq proper.2.1)
  | call f args =>
    obtain ⟨isCallable, callsA⟩ := List.forall_mem_cons.1 calls
    refine (evalArgs_keeps invokes typed.2 vars callsA).bind fun values fit => ?_
    refine (Fn.apply_keeps invokes typed.1 isCallable fit).bind fun r gives => ?_
    obtain ⟨value, rfl, hasType⟩ := gives (hasValue f args rfl)
    exact .pure hasType
  | convert t e =>
    have constant (value : Value) := @WellTyped.constant_hasType _ _ typed value
    obtain ⟨_, _, notVoid, inner⟩ := typed
    simp only [eval]
    cases given : (convert t e).constant? with
    | some value => exact .pure (constant value given)
    | none =>
      refine (eval_keeps invokes inner vars calls (not_void_call notVoid)).bind fun value _ => ?_
      exact ofExcept_convert value t

theorem evalArgs_keeps (invokes : CallsKeep known callable invoke) {es : List Expr}
    {ps : List Var} (fit : ArgsFit assignable es ps) (vars : ∀ v ∈ varsOf es, known v)
    (calls : ∀ f ∈ callsOf es, callable f) :
    Keeps known (evalArgs invoke es) (FitsAll ps) := by
  cases es with
  | nil =>
    cases ps with
    | nil => exact .pure .nil
    | cons p ps => exact fit.elim
  | cons e es =>
    cases ps with
    | nil => exact fit.elim
    | cons p ps =>
      obtain ⟨⟨same, notVoid, typed⟩, rest⟩ := fit
      obtain ⟨varsE, varsEs⟩ := List.forall_mem_append.1 vars
      obtain ⟨callsE, callsEs⟩ := List.forall_mem_append.1 calls
      refine (eval_keeps invokes typed varsE callsE (not_void_call notVoid)).bind
        fun value hasType => ?_
      refine (evalArgs_keeps invokes rest varsEs callsEs).bind fun values restFit => ?_
      exact .pure (.cons (same ▸ hasType) restFit)

end

theorem evalAlone_keeps (invokes : CallsKeep known callable invoke) {e : Expr}
    (typed : e.WellTyped assignable) (vars : ∀ v ∈ e.vars, known v)
    (calls : ∀ f ∈ e.calls, callable f) : Keeps known (e.evalAlone invoke) fun _ => True := by
  cases e with
  | call f args =>
    obtain ⟨isCallable, callsA⟩ := List.forall_mem_cons.1 calls
    refine (evalArgs_keeps invokes typed.2 vars callsA).bind fun values fit => ?_
    exact (Fn.apply_keeps invokes typed.1 isCallable fit).mono fun _ _ => trivial
  | error | range => exact typed.elim
  | _ =>
    exact (eval_keeps invokes typed vars calls (fun _ _ equal => by contradiction)).bind
      fun _ _ => .pure trivial

end Expr

end ScriptLang
