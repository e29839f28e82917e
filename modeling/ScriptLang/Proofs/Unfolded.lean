import ScriptLang.Proofs.Maintained

/-! What an expression does if nothing about it is known ahead of time. The constant of an
expression is the value that it then has, where it has one. -/

namespace ScriptLang

namespace Expr

mutual

/-- Evaluates an expression as if nothing about it were known: variables are read, operators
and conversions are applied, and `&&` and `||` look at their left operand first. -/
def evalUnfolded (invoke : Invoke) : Expr → Run Value
  | error => Run.defect .errorExpression
  | literal v => return v
  | var v => Run.read v
  | assign v e => do
    let value ← e.evalUnfolded invoke
    Run.write v value
    return value
  | unary op e => do
    let value ← e.evalUnfolded invoke
    Run.ofExcept (op.action.apply value)
  | binary l op r => do
    let left ← l.evalUnfolded invoke
    match op.action.shortCircuit? left with
    | some b => return .bool b
    | none =>
      let right ← r.evalUnfolded invoke
      Run.ofExcept (op.action.apply left right)
  | range _ _ => Run.defect .strayRange
  | call f args => do
    let values ← evalArgsUnfolded invoke args
    match ← f.apply invoke values with
    | some value => return value
    | none => Run.defect (.voidUsed f.name)
  | convert t e => do
    let value ← e.evalUnfolded invoke
    Run.ofExcept (value.convert t)

def evalArgsUnfolded (invoke : Invoke) : List Expr → Run (List Value)
  | [] => return []
  | e :: es => do
    let value ← e.evalUnfolded invoke
    return value :: (← evalArgsUnfolded invoke es)

end

section

variable {I : State → Prop} {invoke : Invoke}

mutual

theorem evalUnfolded_maintains {e : Expr}
    (writes : ∀ v ∈ e.assigned, ∀ value, Maintains I (Run.write v value))
    (calls : ∀ f ∈ e.calls, ∀ args, Maintains I (f.apply invoke args)) :
    Maintains I (e.evalUnfolded invoke) := by
  cases e with
  | error | range => exact .fault _
  | literal value => exact .pure value
  | var v => exact .read v
  | assign v e =>
    obtain ⟨write, writes⟩ := List.forall_mem_cons.1 writes
    exact .bind (evalUnfolded_maintains writes calls) fun value =>
      .bind (write value) fun _ => .pure value
  | unary op e =>
    exact .bind (evalUnfolded_maintains (e := e) writes calls) fun value => .ofExcept _
  | binary l op r =>
    obtain ⟨writesL, writesR⟩ := List.forall_mem_append.1 writes
    obtain ⟨callsL, callsR⟩ := List.forall_mem_append.1 calls
    refine .bind (evalUnfolded_maintains writesL callsL) fun left => ?_
    cases op.action.shortCircuit? left with
    | some b => exact .pure _
    | none => exact .bind (evalUnfolded_maintains writesR callsR) fun right => .ofExcept _
  | call f es =>
    obtain ⟨call, calls⟩ := List.forall_mem_cons.1 calls
    refine .bind (evalArgsUnfolded_maintains writes calls) fun values => ?_
    refine .bind (call values) fun result => ?_
    cases result with
    | some value => exact .pure value
    | none => exact .fault _
  | convert t e =>
    exact .bind (evalUnfolded_maintains (e := e) writes calls) fun value => .ofExcept _

theorem evalArgsUnfolded_maintains {es : List Expr}
    (writes : ∀ v ∈ assignedOf es, ∀ value, Maintains I (Run.write v value))
    (calls : ∀ f ∈ callsOf es, ∀ args, Maintains I (f.apply invoke args)) :
    Maintains I (evalArgsUnfolded invoke es) := by
  cases es with
  | nil => exact .pure []
  | cons e es =>
    obtain ⟨writesE, writesEs⟩ := List.forall_mem_append.1 writes
    obtain ⟨callsE, callsEs⟩ := List.forall_mem_append.1 calls
    refine .bind (evalUnfolded_maintains writesE callsE) fun value => ?_
    exact .bind (evalArgsUnfolded_maintains writesEs callsEs) fun values => .pure _

end

/-- An expression that neither assigns nor calls changes nothing. -/
theorem evalUnfolded_of_not_hasSideEffects {e : Expr} (idle : e.hasSideEffects = false)
    (invoke : Invoke) (s : State) : Answer.state (e.evalUnfolded invoke s) = s := by
  obtain ⟨noWrites, noCalls⟩ := nothing_of_not_hasSideEffects idle
  have same : Maintains (fun t => t = s) (e.evalUnfolded invoke) :=
    evalUnfolded_maintains (by simp [noWrites]) (by simp [noCalls])
  exact same s rfl

end

end Expr

theorem Value.asBool?_eq_some {value : Value} {b : Bool} :
    value.asBool? = some b ↔ value = .bool b := by
  cases value <;> simp [asBool?]

namespace BinaryAction

variable {a : BinaryAction} {b : Bool} {w : Value}

theorem shortCircuit?_eq_some :
    a.shortCircuit? w = some b ↔ Expr.decisive? a = some b ∧ w = .bool b := by
  simp [shortCircuit?, Option.filter_eq_some_iff, Value.asBool?_eq_some]

/-- Behind a left operand that does not decide, a right one that does is the result. -/
theorem apply_of_decisive (decisive : Expr.decisive? a = some b)
    (undecided : a.shortCircuit? w = none) :
    a.apply w (.bool b) = .ok (.bool b) ∨
      a.apply w (.bool b) = .error (.mismatch a.text [w.ty, .bool]) := by
  cases w with
  | bool left =>
    have other : left ≠ b := by
      rintro rfl
      rw [shortCircuit?_eq_some.2 ⟨decisive, rfl⟩] at undecided
      contradiction
    cases a <;> simp only [Expr.decisive?, reduceCtorEq, Option.some.injEq] at decisive
    all_goals
      subst decisive
      simp_all [apply, applyBool]
  | _ => exact .inr rfl

end BinaryAction

namespace Expr

/-- Why a binary operation has a constant: the left operand decides, the right one does and
the left one does nothing, or both are known and the operator gives a value on them. -/
inductive Folds (l : Expr) (op : BinaryOp) (r : Expr) : Value → Prop
  | left {b : Bool} (decisive : decisive? op.action = some b)
      (known : l.constant? = some (.bool b)) : Folds l op r (.bool b)
  | right {b : Bool} (decisive : decisive? op.action = some b)
      (known : r.constant? = some (.bool b)) (idle : l.hasSideEffects = false) :
      Folds l op r (.bool b)
  | both {left right c : Value} (knownLeft : l.constant? = some left)
      (knownRight : r.constant? = some right) (undecided : op.action.shortCircuit? left = none)
      (applied : op.action.apply left right = .ok c) : Folds l op r c

theorem folds_of_constant {l r : Expr} {op : BinaryOp} {c : Value}
    (known : (binary l op r).constant? = some c) : Folds l op r c := by
  have isBool {x : Option Value} {b : Bool} (equal : (x.bind Value.asBool? == some b) = true) :
      x = some (.bool b) := by
    obtain ⟨value, given, isBool⟩ := Option.bind_eq_some_iff.1 (beq_iff_eq.1 equal)
    rw [given, Value.asBool?_eq_some.1 isBool]
  simp only [constant?, foldBinary] at known
  split at known
  next b decided =>
    obtain ⟨decisive, operand⟩ := Option.filter_eq_some_iff.1 decided
    obtain rfl := Option.some.inj known
    rcases Bool.or_eq_true_iff.1 operand with byLeft | byRight
    · exact .left decisive (isBool byLeft)
    · obtain ⟨byRight, idle⟩ := Bool.and_eq_true_iff.1 byRight
      exact .right decisive (isBool byRight) (by simpa using idle)
  next undecided =>
    split at known
    next left right givenLeft givenRight =>
      have applied : op.action.apply left right = .ok c := by
        cases result : op.action.apply left right <;> simp_all [Except.toOption]
      refine .both givenLeft givenRight ?_ applied
      cases decided : op.action.shortCircuit? left with
      | none => rfl
      | some b =>
        obtain ⟨decisive, isBool⟩ := BinaryAction.shortCircuit?_eq_some.1 decided
        simp [givenLeft, decisive, isBool, Option.filter, Value.asBool?] at undecided
    next => contradiction

end Expr

/-- What the state shows for a variable of known value is that value. -/
def State.ShowsConstants (s : State) (vs : List Var) : Prop :=
  ∀ v ∈ vs, ∀ c, v.constant = some c → ∀ value, s.read? v = some value → value = c

theorem State.ShowsConstants.append {s : State} {vs ws : List Var}
    (shows : s.ShowsConstants (vs ++ ws)) : s.ShowsConstants vs ∧ s.ShowsConstants ws :=
  List.forall_mem_append.1 shows

theorem Run.ofExcept_eq_ok {α : Type} {result : Except OperatorFault α} {s t : State} {a : α}
    (given : Run.ofExcept result s = .ok a t) : result = .ok a ∧ t = s := by
  cases result with
  | ok b =>
    obtain ⟨rfl, rfl⟩ := EStateM.Result.ok.inj given
    exact ⟨rfl, rfl⟩
  | error e => contradiction

namespace Expr

variable {invoke : Invoke}

/-- An expression of known value that has a value has this one, and changes nothing. -/
theorem evalUnfolded_of_constant {e : Expr} {c : Value} (known : e.constant? = some c)
    {s t : State} (shows : s.ShowsConstants e.vars) {w : Value}
    (given : e.evalUnfolded invoke s = .ok w t) : w = c ∧ t = s := by
  cases e with
  | error | assign | range | call => contradiction
  | literal value =>
    obtain rfl := Option.some.inj known
    obtain ⟨rfl, rfl⟩ := EStateM.Result.ok.inj given
    exact ⟨rfl, rfl⟩
  | var v =>
    rw [evalUnfolded, Run.read_apply] at given
    cases found : s.read? v with
    | none => simp [found] at given
    | some value =>
      rw [found] at given
      obtain ⟨rfl, rfl⟩ := EStateM.Result.ok.inj given
      exact ⟨shows v List.mem_cons_self c known value found, rfl⟩
  | unary op e =>
    obtain ⟨inner, knownInner, applied⟩ := Option.bind_eq_some_iff.1 known
    obtain ⟨value, u, first, rest⟩ := Run.ok_of_bind given
    obtain ⟨rfl, rfl⟩ := evalUnfolded_of_constant knownInner shows first
    obtain ⟨result, rfl⟩ := Run.ofExcept_eq_ok rest
    rw [result] at applied
    exact ⟨Option.some.inj applied, rfl⟩
  | convert target e =>
    obtain ⟨inner, knownInner, converted⟩ := Option.bind_eq_some_iff.1 known
    obtain ⟨value, u, first, rest⟩ := Run.ok_of_bind given
    obtain ⟨rfl, rfl⟩ := evalUnfolded_of_constant knownInner shows first
    obtain ⟨result, rfl⟩ := Run.ofExcept_eq_ok rest
    rw [Value.convert, converted] at result
    exact ⟨(Except.ok.inj result).symm, rfl⟩
  | binary l op r =>
    obtain ⟨showsL, showsR⟩ := State.ShowsConstants.append shows
    obtain ⟨left, u, first, rest⟩ := Run.ok_of_bind given
    cases folds_of_constant known with
    | @left b decisive knownLeft =>
      obtain ⟨rfl, rfl⟩ := evalUnfolded_of_constant knownLeft showsL first
      rw [BinaryAction.shortCircuit?_eq_some.2 ⟨decisive, rfl⟩] at rest
      obtain ⟨rfl, rfl⟩ := EStateM.Result.ok.inj rest
      exact ⟨rfl, rfl⟩
    | @right b decisive knownRight idle =>
      have unchanged := evalUnfolded_of_not_hasSideEffects idle invoke s
      rw [first] at unchanged
      obtain rfl : u = s := unchanged
      cases decided : op.action.shortCircuit? left with
      | some b' =>
        rw [decided] at rest
        obtain ⟨rfl, rfl⟩ := EStateM.Result.ok.inj rest
        have same := (BinaryAction.shortCircuit?_eq_some.1 decided).1
        rw [decisive] at same
        exact ⟨congrArg Value.bool (Option.some.inj same).symm, rfl⟩
      | none =>
        rw [decided] at rest
        obtain ⟨right, u', second, last⟩ := Run.ok_of_bind rest
        obtain ⟨rfl, rfl⟩ := evalUnfolded_of_constant knownRight showsR second
        obtain ⟨result, rfl⟩ := Run.ofExcept_eq_ok last
        rcases BinaryAction.apply_of_decisive decisive decided with applied | applied
        · rw [applied] at result
          exact ⟨(Except.ok.inj result).symm, rfl⟩
        · rw [applied] at result
          contradiction
    | both knownLeft knownRight undecided applied =>
      obtain ⟨rfl, rfl⟩ := evalUnfolded_of_constant knownLeft showsL first
      rw [undecided] at rest
      obtain ⟨right, u', second, last⟩ := Run.ok_of_bind rest
      obtain ⟨rfl, rfl⟩ := evalUnfolded_of_constant knownRight showsR second
      obtain ⟨result, rfl⟩ := Run.ofExcept_eq_ok last
      rw [applied] at result
      exact ⟨(Except.ok.inj result).symm, rfl⟩

end Expr

end ScriptLang
