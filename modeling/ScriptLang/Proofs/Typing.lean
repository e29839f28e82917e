import ScriptLang.Conversion
import ScriptLang.Proofs.Mentions

/-! What it means that typed code keeps to its types. Which variables code may assign to is
left open: binding allows those that are not read-only, and lowering adds the steps of
loops. -/

namespace ScriptLang

/-- Every value has the type `any`. -/
def Value.HasType (value : Value) (t : Ty) : Prop := t = .any ∨ value.ty = t

/-- The type of the variable is not a mistake, and its constant has that type. -/
structure Var.WellTyped (v : Var) : Prop where
  known : v.ty ≠ .error
  constant : ∀ value, v.constant = some value → value.HasType v.ty

structure Fn.WellTyped (f : Fn) : Prop where
  known : f.returns ≠ .error
  parameters : ∀ p ∈ f.parameters, p.WellTyped
  builtin : ∀ b, f.builtin = some b →
    f.parameters.map Var.ty = b.parameters.map Prod.snd ∧ f.returns = b.returns

namespace Expr

variable (assignable : Var → Prop)

mutual

/-- The types fit at every node. An expression without a value stands nowhere below. -/
def WellTyped : Expr → Prop
  | error | range _ _ => False
  | literal _ => True
  | var v => v.WellTyped
  | assign v e =>
    assignable v ∧ v.WellTyped ∧ e.ty = v.ty ∧ e.ty ≠ .void ∧ e.WellTyped
  | unary op e => op ∈ UnaryOp.table ∧ e.ty = op.operand ∧ e.WellTyped
  | binary l op r =>
    op ∈ BinaryOp.table ∧ (l.ty = op.left ∧ l.WellTyped) ∧ (r.ty = op.right ∧ r.WellTyped)
  | call f args => f.WellTyped ∧ ArgsFit args f.parameters
  | convert t e =>
    (Conversion.classify e.ty t = .implicit ∨ Conversion.classify e.ty t = .explicit) ∧
      t ≠ .error ∧ e.ty ≠ .void ∧ e.WellTyped

def ArgsFit : List Expr → List Var → Prop
  | [], [] => True
  | e :: es, p :: ps => (e.ty = p.ty ∧ e.ty ≠ .void ∧ e.WellTyped) ∧ ArgsFit es ps
  | _, _ => False

end

/-- A well-typed expression of a type that a value can have. -/
structure Fits (t : Ty) (e : Expr) : Prop where
  ty : e.ty = t
  hasValue : e.ty ≠ .void
  wellTyped : e.WellTyped assignable

end Expr

namespace Stmt

variable (assignable : Var → Prop)

mutual

/-- The types fit in a statement of a function with a result type, or of none. -/
def WellTyped (returns : Option Ty) : Stmt → Prop
  | block body => AllWellTyped returns body
  | declare v e => v.WellTyped ∧ e.Fits assignable v.ty
  | ifThen c t => c.Fits assignable .bool ∧ t.WellTyped returns
  | ifElse c t e => c.Fits assignable .bool ∧ t.WellTyped returns ∧ e.WellTyped returns
  | whileDo c body _ | doWhile body c _ => c.Fits assignable .bool ∧ body.WellTyped returns
  | forIn v range body _ =>
    (v.ty = .int ∧ v.constant = none) ∧
      (∃ lower upper, range = .range lower upper ∧ lower.Fits assignable .int ∧
        upper.Fits assignable .int) ∧ body.WellTyped returns
  | label _ | goto _ => True
  | gotoIf _ c _ => c.Fits assignable .bool
  | ret none => returns = some .void
  | ret (some e) => ∃ t, returns = some t ∧ e.Fits assignable t
  | expr e => e.WellTyped assignable

def AllWellTyped (returns : Option Ty) : List Stmt → Prop
  | [] => True
  | s :: ss => s.WellTyped returns ∧ AllWellTyped returns ss

end

end Stmt

theorem Value.ty_ne (value : Value) :
    value.ty ≠ .error ∧ value.ty ≠ .any ∧ value.ty ≠ .void := by
  cases value <;> simp [ty]

theorem Value.HasType.ty_eq {value : Value} {t : Ty} (typed : value.HasType t) (proper : t ≠ .any) :
    value.ty = t := typed.resolve_left proper

theorem Value.convert?_hasType {value converted : Value} {t : Ty}
    (given : value.convert? t = some converted) : converted.HasType t := by
  cases t with
  | any => exact .inl rfl
  | error => cases value <;> simp [convert?] at given
  | void => cases value <;> simp [convert?] at given
  | bool | int | float | string =>
    right
    cases value <;> simp [convert?] at given <;> grind [ty]

namespace UnaryOp

theorem result_of_mem {op : UnaryOp} (member : op ∈ table) :
    op.operand ≠ .any ∧ op.result ≠ .any ∧ op.result ≠ .error ∧ op.result ≠ .void := by
  revert op
  decide

/-- An operator never meets a value that it cannot be applied to. -/
theorem apply_of_mem {op : UnaryOp} (member : op ∈ table) {value : Value}
    (typed : value.ty = op.operand) :
    ∃ result, op.action.apply value = .ok result ∧ result.ty = op.result := by
  simp only [table, List.mem_cons, List.not_mem_nil, or_false] at member
  rcases member with rfl | rfl | rfl | rfl | rfl | rfl <;> cases value <;>
    simp_all [on, Value.ty, UnaryAction.apply]

end UnaryOp

namespace BinaryOp

theorem result_of_mem {op : BinaryOp} (member : op ∈ table) :
    op.left ≠ .any ∧ op.right ≠ .any ∧ op.result ≠ .any ∧ op.result ≠ .error ∧
      op.result ≠ .void := by
  revert op
  decide

theorem result_of_decisive {op : BinaryOp} (member : op ∈ table)
    (decisive : (Expr.decisive? op.action).isSome = true) : op.result = .bool := by
  revert op
  decide

end BinaryOp

def BinaryAction.resultOn? (a : BinaryAction) : Ty → Option Ty
  | .int =>
    match a with
    | equals | notEquals | less | lessOrEquals | greater | greaterOrEquals => some .bool
    | logicalAnd | logicalOr => none
    | _ => some .int
  | .float =>
    match a with
    | equals | notEquals | less | lessOrEquals | greater | greaterOrEquals => some .bool
    | addition | subtraction | multiplication | division | modulo => some .float
    | _ => none
  | .bool =>
    match a with
    | logicalAnd | logicalOr | bitwiseAnd | bitwiseOr | bitwiseXor | equals | notEquals =>
      some .bool
    | _ => none
  | .string =>
    match a with
    | addition => some .string
    | equals | notEquals => some .bool
    | _ => none
  | _ => none

theorem BinaryOp.resultOn?_of_mem {op : BinaryOp} (member : op ∈ table) :
    op.right = op.left ∧ op.action.resultOn? op.left = some op.result := by
  revert op
  decide

theorem BinaryAction.apply_of_resultOn? {a : BinaryAction} {left right : Value} {t : Ty}
    (same : right.ty = left.ty) (result : a.resultOn? left.ty = some t) :
    (∃ value, a.apply left right = .ok value ∧ value.ty = t) ∨
      a.apply left right = .error .divisionByZero := by
  cases left <;> cases right <;> simp only [Value.ty, reduceCtorEq] at same <;> cases a <;>
    simp only [resultOn?, Value.ty, reduceCtorEq, Option.some.injEq] at result <;> subst result
  case int.int.division l r =>
    by_cases zero : r = 0 <;> simp [apply, applyInt, zero, Value.ty]
  case int.int.modulo l r =>
    by_cases zero : r = 0 <;> simp [apply, applyInt, zero, Value.ty]
  all_goals exact .inl ⟨_, rfl, rfl⟩

/-- The only fault of an operator on operands of its types is a division by zero. -/
theorem BinaryOp.apply_of_mem {op : BinaryOp} (member : op ∈ table) {left right : Value}
    (leftTyped : left.ty = op.left) (rightTyped : right.ty = op.right) :
    (∃ result, op.action.apply left right = .ok result ∧ result.ty = op.result) ∨
      op.action.apply left right = .error .divisionByZero := by
  obtain ⟨same, result⟩ := resultOn?_of_mem member
  rw [← leftTyped] at result same
  exact BinaryAction.apply_of_resultOn? (rightTyped.trans same) result

namespace Expr

variable {assignable : Var → Prop}

theorem WellTyped.ty_ne_error {e : Expr} (typed : e.WellTyped assignable) : e.ty ≠ .error := by
  cases e with
  | error | range => exact typed.elim
  | literal value => exact value.ty_ne.1
  | var v => exact Var.WellTyped.known typed
  | assign v e =>
    obtain ⟨_, known, same, _⟩ := typed
    exact fun isError => known.known (same.symm.trans isError)
  | unary op e => exact (UnaryOp.result_of_mem typed.1).2.2.1
  | binary l op r => exact (BinaryOp.result_of_mem typed.1).2.2.2.1
  | call f args => exact typed.1.known
  | convert t e => exact typed.2.1

theorem constant_of_unary {op : UnaryOp} {e : Expr} (member : op ∈ UnaryOp.table)
    (operand : ∀ value, e.constant? = some value → value.ty = op.operand) {value : Value}
    (known : (unary op e).constant? = some value) : value.ty = op.result := by
  obtain ⟨inner, given, applied⟩ := Option.bind_eq_some_iff.1 known
  obtain ⟨result, equal, typed⟩ := UnaryOp.apply_of_mem member (operand inner given)
  rw [equal] at applied
  obtain rfl := Option.some.inj applied
  exact typed

theorem constant_of_binary {op : BinaryOp} {l r : Expr} (member : op ∈ BinaryOp.table)
    (left : ∀ value, l.constant? = some value → value.ty = op.left)
    (right : ∀ value, r.constant? = some value → value.ty = op.right) {value : Value}
    (known : (binary l op r).constant? = some value) : value.ty = op.result := by
  simp only [constant?, foldBinary] at known
  split at known
  next b decided =>
    obtain rfl := Option.some.inj known
    have decisive := Option.isSome_of_eq_some (Option.filter_eq_some_iff.1 decided).1
    exact (BinaryOp.result_of_decisive member decisive).symm
  next =>
    split at known
    next first second givenLeft givenRight =>
      rcases BinaryOp.apply_of_mem member (left first givenLeft) (right second givenRight) with
        ⟨result, equal, typed⟩ | equal
      · rw [equal] at known
        obtain rfl := Option.some.inj known
        exact typed
      · rw [equal] at known
        contradiction
    next => contradiction

/-- A value that is known ahead of time has the type of the expression. -/
theorem WellTyped.constant_hasType {e : Expr} (typed : e.WellTyped assignable) {value : Value}
    (known : e.constant? = some value) : value.HasType e.ty := by
  cases e with
  | error | range => exact typed.elim
  | literal _ =>
    obtain rfl := Option.some.inj known
    exact .inr rfl
  | var v => exact Var.WellTyped.constant typed value known
  | assign | call => contradiction
  | unary op e =>
    have proper := (UnaryOp.result_of_mem typed.1).1
    refine .inr (constant_of_unary typed.1 (fun inner given => ?_) known)
    exact (typed.2.1 ▸ typed.2.2.constant_hasType given).ty_eq proper
  | binary l op r =>
    have proper := BinaryOp.result_of_mem typed.1
    refine .inr (constant_of_binary typed.1 (fun inner given => ?_) (fun inner given => ?_) known)
    · exact (typed.2.1.1 ▸ typed.2.1.2.constant_hasType given).ty_eq proper.1
    · exact (typed.2.2.1 ▸ typed.2.2.2.constant_hasType given).ty_eq proper.2.1
  | convert t e =>
    obtain ⟨inner, _, converted⟩ := Option.bind_eq_some_iff.1 known
    exact Value.convert?_hasType converted

mutual

theorem WellTyped.assigned {e : Expr} (typed : e.WellTyped assignable) :
    ∀ v ∈ e.assigned, assignable v := by
  cases e with
  | error | range => exact typed.elim
  | literal | var => exact List.forall_mem_nil _
  | assign v e => exact List.forall_mem_cons.2 ⟨typed.1, typed.2.2.2.2.assigned⟩
  | unary op e => exact WellTyped.assigned (e := e) typed.2.2
  | convert t e => exact WellTyped.assigned (e := e) typed.2.2.2
  | binary l op r => exact List.forall_mem_append.2 ⟨typed.2.1.2.assigned, typed.2.2.2.assigned⟩
  | call f args => exact ArgsFit.assigned typed.2

theorem ArgsFit.assigned {es : List Expr} {ps : List Var} (fit : ArgsFit assignable es ps) :
    ∀ v ∈ assignedOf es, assignable v := by
  cases es with
  | nil => exact List.forall_mem_nil _
  | cons e es =>
    cases ps with
    | nil => exact fit.elim
    | cons p ps => exact List.forall_mem_append.2 ⟨fit.1.2.2.assigned, ArgsFit.assigned fit.2⟩

end

end Expr

end ScriptLang
