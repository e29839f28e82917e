import ScriptLang.Proofs.Alike
import ScriptLang.Proofs.BindingExpr
import ScriptLang.Proofs.Unfolded

/-! Evaluation takes the constant of an expression for its value. The only faults that this
hides are those of the left operands of `&&` and `||` that are left out because the right
operand decides. -/

namespace ScriptLang

namespace Expr

mutual

/-- The left operands that are left out although their value is not known: the right operand
decides, and the left one does nothing. -/
def dropped : Expr → List Expr
  | error | literal _ | var _ | range _ _ => []
  | assign _ e | unary _ e | convert _ e => e.dropped
  | binary l op r =>
    (if l.constant?.isNone && (binary l op r).constant?.isSome then [l] else []) ++
      l.dropped ++ r.dropped
  | call _ args => droppedOf args

def droppedOf : List Expr → List Expr
  | [] => []
  | e :: es => e.dropped ++ droppedOf es

end

theorem dropped_left (l : Expr) (op : BinaryOp) (r : Expr) : l.dropped ⊆ (binary l op r).dropped := by
  intro e member
  simp [dropped, member]

theorem dropped_right (l : Expr) (op : BinaryOp) (r : Expr) : r.dropped ⊆ (binary l op r).dropped := by
  intro e member
  simp [dropped, member]

end Expr

/-- Why a stop may be missing where constants are used: it is a defect, or one of the operands
stops so in the same state. -/
def HiddenBy (invoke : Invoke) (operands : List Expr) (stop : Stop) (s : State) : Prop :=
  (∃ d, stop = .fault (.defect d)) ∨
    ∃ e ∈ operands, e.evalUnfolded invoke s = .error stop s

theorem HiddenBy.mono {invoke : Invoke} {operands more : List Expr} {stop : Stop} {s : State}
    (hidden : HiddenBy invoke operands stop s) (among : operands ⊆ more) :
    HiddenBy invoke more stop s := by
  rcases hidden with isDefect | ⟨e, member, stops⟩
  · exact .inl isDefect
  · exact .inr ⟨e, among member, stops⟩

theorem HiddenBy.mismatch {invoke : Invoke} {operands : List Expr} {a : String} {types : List Ty}
    {stop : Stop} {s t : State}
    (given : (Run.ofExcept (.error (.mismatch a types)) : Run Value) s = .error stop t) :
    HiddenBy invoke operands stop t := by
  obtain ⟨rfl, rfl⟩ := EStateM.Result.error.inj given
  exact .inl ⟨_, rfl⟩

namespace Expr

variable {invoke : Invoke}

/-- An expression of known value stops only for reasons that are hidden. -/
theorem hidden_of_constant {e : Expr} {c : Value} (known : e.constant? = some c) {s t : State}
    (shows : s.ShowsConstants e.vars) {stop : Stop}
    (given : e.evalUnfolded invoke s = .error stop t) : HiddenBy invoke e.dropped stop t := by
  cases e with
  | error | assign | range | call => contradiction
  | literal value => contradiction
  | var v =>
    rw [evalUnfolded, Run.read_apply] at given
    cases found : s.read? v with
    | some value => simp [found] at given
    | none =>
      rw [found] at given
      obtain ⟨rfl, rfl⟩ := EStateM.Result.error.inj given
      exact .inl ⟨_, rfl⟩
  | unary op e =>
    obtain ⟨inner, knownInner, applied⟩ := Option.bind_eq_some_iff.1 known
    rcases Run.error_of_bind given with first | ⟨value, u, first, rest⟩
    · exact hidden_of_constant knownInner shows first
    · obtain ⟨rfl, rfl⟩ := evalUnfolded_of_constant knownInner shows first
      cases result : op.action.apply value with
      | ok w =>
        rw [result] at rest
        contradiction
      | error e =>
        rw [result] at applied
        contradiction
  | convert target e =>
    obtain ⟨inner, knownInner, converted⟩ := Option.bind_eq_some_iff.1 known
    rcases Run.error_of_bind given with first | ⟨value, u, first, rest⟩
    · exact hidden_of_constant knownInner shows first
    · obtain ⟨rfl, rfl⟩ := evalUnfolded_of_constant knownInner shows first
      rw [Value.convert, converted] at rest
      contradiction
  | binary l op r =>
    obtain ⟨showsL, showsR⟩ := State.ShowsConstants.append shows
    cases folds_of_constant known with
    | left decisive knownLeft =>
      rcases Run.error_of_bind given with first | ⟨left, u, first, rest⟩
      · exact (hidden_of_constant knownLeft showsL first).mono (dropped_left l op r)
      · obtain ⟨rfl, rfl⟩ := evalUnfolded_of_constant knownLeft showsL first
        rw [BinaryAction.shortCircuit?_eq_some.2 ⟨decisive, rfl⟩] at rest
        contradiction
    | right decisive knownRight idle =>
      have unchanged := evalUnfolded_of_not_hasSideEffects idle invoke s
      rcases Run.error_of_bind given with first | ⟨left, u, first, rest⟩
      · cases knownLeft : l.constant? with
        | some left => exact (hidden_of_constant knownLeft showsL first).mono (dropped_left l op r)
        | none =>
          rw [first] at unchanged
          obtain rfl : t = s := unchanged
          exact .inr ⟨l, by simp [dropped, knownLeft, known], first⟩
      · rw [first] at unchanged
        obtain rfl : u = s := unchanged
        cases decided : op.action.shortCircuit? left with
        | some b =>
          rw [decided] at rest
          contradiction
        | none =>
          rw [decided] at rest
          rcases Run.error_of_bind rest with second | ⟨right, u', second, last⟩
          · exact (hidden_of_constant knownRight showsR second).mono (dropped_right l op r)
          · obtain ⟨rfl, rfl⟩ := evalUnfolded_of_constant knownRight showsR second
            rcases BinaryAction.apply_of_decisive decisive decided with applied | applied
            · rw [applied] at last
              contradiction
            · rw [applied] at last
              exact .mismatch last
    | both knownLeft knownRight undecided applied =>
      rcases Run.error_of_bind given with first | ⟨left, u, first, rest⟩
      · exact (hidden_of_constant knownLeft showsL first).mono (dropped_left l op r)
      · obtain ⟨rfl, rfl⟩ := evalUnfolded_of_constant knownLeft showsL first
        rw [undecided] at rest
        rcases Run.error_of_bind rest with second | ⟨right, u', second, last⟩
        · exact (hidden_of_constant knownRight showsR second).mono (dropped_right l op r)
        · obtain ⟨rfl, rfl⟩ := evalUnfolded_of_constant knownRight showsR second
          rw [applied] at last
          contradiction

end Expr

/-- In the state, `y` does what `x` does, unless `x` stops for a reason that is hidden. -/
def AgreesUnless {α : Type} (hidden : Stop → State → Prop) (x y : Run α) (s : State) : Prop :=
  y s = x s ∨ ∃ stop t, x s = .error stop t ∧ hidden stop t

namespace AgreesUnless

variable {α β : Type} {hidden : Stop → State → Prop} {s : State}

theorem refl (x : Run α) : AgreesUnless hidden x x s := .inl rfl

theorem bind {x y : Run α} {f g : α → Run β} (first : AgreesUnless hidden x y s)
    (second : ∀ a t, x s = .ok a t → AgreesUnless hidden (f a) (g a) t) :
    AgreesUnless hidden (x >>= f) (y >>= g) s := by
  rcases first with same | ⟨stop, t, stops, isHidden⟩
  · cases given : x s with
    | error stop t =>
      rw [given] at same
      exact .inl (by rw [Run.bind_of_error f given, Run.bind_of_error g same])
    | ok a t =>
      rw [given] at same
      unfold AgreesUnless
      rw [Run.bind_of_ok f given, Run.bind_of_ok g same]
      exact second a t given
  · exact .inr ⟨stop, t, Run.bind_of_error f stops, isHidden⟩

theorem mono {hidden' : Stop → State → Prop} {x y : Run α} (agrees : AgreesUnless hidden x y s)
    (more : ∀ stop t, hidden stop t → hidden' stop t) : AgreesUnless hidden' x y s := by
  rcases agrees with same | ⟨stop, t, stops, isHidden⟩
  · exact .inl same
  · exact .inr ⟨stop, t, stops, more stop t isHidden⟩

end AgreesUnless

namespace Expr

section

variable {invoke : Invoke}

theorem agrees_of_constant {e : Expr} {c : Value} {s : State} (known : e.constant? = some c)
    (shows : s.ShowsConstants e.vars) :
    AgreesUnless (HiddenBy invoke e.dropped) (e.evalUnfolded invoke) (e.eval invoke) s := by
  rw [eval_of_constant known]
  cases given : e.evalUnfolded invoke s with
  | ok w t =>
    obtain ⟨rfl, rfl⟩ := evalUnfolded_of_constant known shows given
    exact .inl given.symm
  | error stop t => exact .inr ⟨stop, t, given, hidden_of_constant known shows given⟩

variable {I : State → Prop} {vs : List Var}

mutual

theorem eval_agrees (shows : ∀ s, I s → s.ShowsConstants vs) {e : Expr} {s : State}
    (within : e.vars ⊆ vs)
    (writes : ∀ v ∈ e.assigned, ∀ value, Maintains I (Run.write v value))
    (calls : ∀ f ∈ e.calls, ∀ args, Maintains I (f.apply invoke args)) (holds : I s) :
    AgreesUnless (HiddenBy invoke e.dropped) (e.evalUnfolded invoke) (e.eval invoke) s := by
  cases constant : e.constant? with
  | some c => exact agrees_of_constant constant fun v member => shows s holds v (within member)
  | none =>
    cases e with
    | error | literal | range => exact .refl _
    | var v =>
      have unknown : v.constant = none := constant
      simp only [eval, unknown]
      exact .refl _
    | assign v e =>
      obtain ⟨_, writesE⟩ := List.forall_mem_cons.1 writes
      have withinE : e.vars ⊆ vs := fun w member => within (List.mem_cons_of_mem v member)
      exact (eval_agrees shows withinE writesE calls holds).bind fun _ _ _ => .refl _
    | unary op e =>
      simp only [eval, constant]
      exact (eval_agrees shows (e := e) within writes calls holds).bind fun _ _ _ => .refl _
    | convert t e =>
      simp only [eval, constant]
      exact (eval_agrees shows (e := e) within writes calls holds).bind fun _ _ _ => .refl _
    | binary l op r =>
      obtain ⟨withinL, withinR⟩ := List.append_subset.1 within
      obtain ⟨writesL, writesR⟩ := List.forall_mem_append.1 writes
      obtain ⟨callsL, callsR⟩ := List.forall_mem_append.1 calls
      simp only [eval, constant]
      have left := (eval_agrees shows withinL writesL callsL holds).mono
        fun stop t hidden => hidden.mono (dropped_left l op r)
      refine left.bind fun value t given => ?_
      have holds' := (evalUnfolded_maintains writesL callsL).of_ok holds given
      cases op.action.shortCircuit? value with
      | some b => exact .refl _
      | none =>
        have right := (eval_agrees shows withinR writesR callsR holds').mono
          fun stop t hidden => hidden.mono (dropped_right l op r)
        exact right.bind fun _ _ _ => .refl _
    | call f es =>
      exact (evalArgs_agrees shows within writes (List.forall_mem_cons.1 calls).2 holds).bind
        fun _ _ _ => .refl _

theorem evalArgs_agrees (shows : ∀ s, I s → s.ShowsConstants vs) {es : List Expr} {s : State}
    (within : varsOf es ⊆ vs)
    (writes : ∀ v ∈ assignedOf es, ∀ value, Maintains I (Run.write v value))
    (calls : ∀ f ∈ callsOf es, ∀ args, Maintains I (f.apply invoke args)) (holds : I s) :
    AgreesUnless (HiddenBy invoke (droppedOf es)) (evalArgsUnfolded invoke es)
      (evalArgs invoke es) s := by
  cases es with
  | nil => exact .refl _
  | cons e es =>
    obtain ⟨withinE, withinEs⟩ := List.append_subset.1 within
    obtain ⟨writesE, writesEs⟩ := List.forall_mem_append.1 writes
    obtain ⟨callsE, callsEs⟩ := List.forall_mem_append.1 calls
    have first := (eval_agrees shows withinE writesE callsE holds).mono
      fun stop t hidden => hidden.mono (List.subset_append_left e.dropped (droppedOf es))
    refine first.bind fun value t given => ?_
    have holds' := (evalUnfolded_maintains writesE callsE).of_ok holds given
    have rest := (evalArgs_agrees shows withinEs writesEs callsEs holds').mono
      fun stop t hidden => hidden.mono (List.subset_append_right e.dropped (droppedOf es))
    exact rest.bind fun _ _ _ => .refl _

end

end

end Expr

/-- Writing a variable without a constant leaves alone what is shown for the others. -/
theorem Run.write_showsConstants {vs : List Var}
    (apart : ∀ v ∈ vs, ∀ w ∈ vs, v.id = w.id → v = w) {v : Var} (member : v ∈ vs)
    (unknown : v.constant = none) (value : Value) :
    Maintains (·.ShowsConstants vs) (Run.write v value) := by
  intro s shows w within c known found given
  have same : (s.write v value).read? w = s.read? w := by
    apply State.read?_write_of_apart
    intro _ equal
    rw [apart w within v member equal, unknown] at known
    contradiction
  exact shows w within c known found (same ▸ given)

theorem Fn.apply_showsConstants {invoke : Invoke} {vs : List Var} {f : Fn} {args : List Value}
    (calls : f.builtin = none → Maintains (·.ShowsConstants vs) (invoke f args)) :
    Maintains (·.ShowsConstants vs) (f.apply invoke args) := by
  unfold Fn.apply
  cases isBuiltin : f.builtin with
  | none => exact calls isBuiltin
  | some b => exact Builtin.run_maintains (fun s host shows => shows) b args

/-- Where the reasons for a missing stop are those of `HiddenBy`, a fault of the program is missing
only because an operand has it. -/
theorem AgreesUnless.faults {α : Type} {invoke : Invoke} {operands : List Expr} {x y : Run α}
    {s t : State} (agrees : AgreesUnless (HiddenBy invoke operands) x y s) {f : Fault}
    (noDefect : ∀ d, f ≠ .defect d) (faults : x s = .error (.fault f) t) :
    y s = .error (.fault f) t ∨
      ∃ l ∈ operands, l.evalUnfolded invoke t = .error (.fault f) t := by
  rcases agrees with same | ⟨stop, u, stops, hidden⟩
  · exact .inl (same.trans faults)
  · rw [faults] at stops
    obtain ⟨rfl, rfl⟩ := EStateM.Result.error.inj stops
    rcases hidden with ⟨d, isDefect⟩ | dropped
    · exact absurd (Stop.fault.inj isDefect) (noDefect d)
    · exact .inr dropped

/-- Constants hide no fault but those of operands that folding leaves out. The expression is
well typed, its variables are told apart by their numbers, the state shows the constants of its
variables, and the functions that it calls leave them in place. Then a fault of its evaluation
without constants is one of its evaluation, or it is the fault of the left operand of some `&&`
or `||` that is folded although this operand is not known. -/
theorem folding_hides_only_dropped_faults {e : Expr} {invoke : Invoke} {s t : State} {f : Fault}
    (typed : e.WellTyped Var.Assignable)
    (apart : ∀ v ∈ e.vars, ∀ w ∈ e.vars, v.id = w.id → v = w)
    (shows : s.ShowsConstants e.vars)
    (calls : ∀ g ∈ e.calls, g.builtin = none → ∀ args,
      Maintains (·.ShowsConstants e.vars) (invoke g args))
    (noDefect : ∀ d, f ≠ .defect d)
    (faults : e.evalUnfolded invoke s = .error (.fault f) t) :
    e.eval invoke s = .error (.fault f) t ∨
      ∃ l ∈ e.dropped, l.evalUnfolded invoke t = .error (.fault f) t := by
  have writes : ∀ v ∈ e.assigned, ∀ value, Maintains (·.ShowsConstants e.vars) (Run.write v value) := by
    intro v member
    have isMutable : v.readOnly = false := typed.assigned v member
    apply Run.write_showsConstants apart (e.assigned_subset_vars member)
    exact Var.constant_of_mutable isMutable
  have agrees := Expr.eval_agrees (fun _ shows => shows) (List.Subset.refl _) writes
    (fun g member args => Fn.apply_showsConstants fun userMade => calls g member userMade args) shows
  exact agrees.faults noDefect faults

namespace FoldedFaults

def limit : Var := ⟨0, "limit", .int, .globalVar, .readOnly (some (.int 10))⟩

def zero : Var := ⟨1, "zero", .int, .globalVar, .mutable⟩

def tick : Fn := ⟨2, "tick", [], .int, none, none⟩

def quotient : Expr :=
  .binary (.call tick []) .intAddition
    (.binary (.var limit) (.combine .int .slash .division) (.var zero))

def falseAnyway : Expr :=
  .binary (.binary (.binary (.literal (.int 1)) (.combine .int .slash .division)
    (.literal (.int 0))) .intEquals (.literal (.int 1)))
    (.combine .bool .ampersandAmpersand .logicalAnd) (.literal (.bool false))

def ticks : Invoke := fun _ _ => return some (.int 1)

def state : State :=
  { globals := (Store.write .empty limit (.int 10)).write zero (.int 0), frames := [],
    host := .empty, last := none }

end FoldedFaults

theorem FoldedFaults.quotient_wellTyped : quotient.WellTyped Var.Assignable := by
  have limitTyped : limit.WellTyped := by
    refine ⟨by decide, fun value known => ?_⟩
    obtain rfl := Option.some.inj known
    exact .inr rfl
  have zeroTyped : zero.WellTyped := ⟨by decide, fun value known => by contradiction⟩
  have tickTyped : tick.WellTyped :=
    ⟨by decide, List.forall_mem_nil _, fun b isBuiltin => by contradiction⟩
  exact ⟨by decide, ⟨rfl, tickTyped, trivial⟩, rfl, by decide, ⟨rfl, limitTyped⟩, rfl, zeroTyped⟩

/-- No operand of `tick() + limit / zero` is left out, so its fault is in place. -/
theorem quotient_faults :
    FoldedFaults.quotient.evalUnfolded FoldedFaults.ticks FoldedFaults.state =
        .error (.fault .divisionByZero) FoldedFaults.state ∧
      FoldedFaults.quotient.eval FoldedFaults.ticks FoldedFaults.state =
        .error (.fault .divisionByZero) FoldedFaults.state := by
  have faults : FoldedFaults.quotient.evalUnfolded FoldedFaults.ticks FoldedFaults.state =
      .error (.fault .divisionByZero) FoldedFaults.state := rfl
  have shows : FoldedFaults.state.ShowsConstants FoldedFaults.quotient.vars := by
    intro v member c known value given
    simp only [FoldedFaults.quotient, Expr.vars, Expr.varsOf, List.nil_append, List.cons_append,
      List.mem_cons, List.not_mem_nil, or_false] at member
    rcases member with rfl | rfl
    · obtain rfl := Option.some.inj known
      exact (Option.some.inj given).symm
    · contradiction
  have inPlace := folding_hides_only_dropped_faults FoldedFaults.quotient_wellTyped (by decide)
    shows (fun _ _ _ _ => .pure _) (fun d => by simp) faults
  refine ⟨faults, inPlace.resolve_right ?_⟩
  rintro ⟨l, member, _⟩
  contradiction

/-- Folding can hide a fault: `1 / 0 == 1 && false` is known to be `false`, and its left
operand, which does nothing but fail, is left out. -/
theorem falseAnyway_hides_division :
    ¬∀ (e : Expr) (invoke : Invoke) (s t : State) (f : Fault), e.WellTyped Var.Assignable →
      (∀ v ∈ e.vars, ∃ value, s.read? v = some value ∧ ∀ c, v.constant = some c → value = c) →
      e.evalUnfolded invoke s = .error (.fault f) t → e.eval invoke s = .error (.fault f) t := by
  intro claim
  have typed : FoldedFaults.falseAnyway.WellTyped Var.Assignable :=
    ⟨by decide, ⟨rfl, by decide, ⟨rfl, by decide, ⟨rfl, trivial⟩, rfl, trivial⟩, rfl, trivial⟩, rfl,
      trivial⟩
  have folded := claim FoldedFaults.falseAnyway FoldedFaults.ticks FoldedFaults.state
    FoldedFaults.state .divisionByZero typed (List.forall_mem_nil _) rfl
  have value : FoldedFaults.falseAnyway.eval FoldedFaults.ticks FoldedFaults.state =
      .ok (.bool false) FoldedFaults.state := rfl
  rw [value] at folded
  contradiction

end ScriptLang
