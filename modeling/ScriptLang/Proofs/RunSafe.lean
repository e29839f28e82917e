import ScriptLang.Proofs.ChainSafe
import ScriptLang.Proofs.EvalSafe
import ScriptLang.Proofs.FlatRun

/-! A run of a safe body keeps states typed, gives a value if its function returns one, and
meets no defect but a variable without a value. So does a chain of compiled units. -/

namespace ScriptLang

/-- Where a statement of a body leads: to a statement behind it on some way through the body,
or to a return that gives what the function promises. -/
def LeadsOn (body : Body) (returns : Ty) (place : Nat) : Next → Prop
  | .goto target => body.LeadsTo place target
  | .ret r => returns ≠ .void → ∃ value, r = some value ∧ value.HasType returns

section

variable {known : Var → Prop} {callable : Fn → Prop} {invoke : Invoke} {body : Body} {returns : Ty}

theorem Value.eq_bool {value : Value} (hasType : value.HasType .bool) : ∃ b, value = .bool b := by
  cases value with
  | bool b => exact ⟨b, rfl⟩
  | _ => exact absurd (hasType.ty_eq (by decide)) (by simp [Value.ty])

theorem Run.jump_keeps {P : Next → Prop} {l : Label} (defined : l.id ∈ definitions body)
    (leads : ∀ target, body.labelPlace? l = some target → P (.goto target)) :
    Keeps known (Run.jump body l) P := by
  obtain ⟨place, found⟩ := Body.labelPlace?_of_mem defined
  unfold Run.jump
  rw [found]
  exact .pure (leads place found)

theorem Run.stmt_keeps (invokes : CallsKeep known callable invoke)
    (safe : body.Safe known callable returns) (isEntry : Bool) {place : Nat} {s : Stmt}
    (get : body[place]? = some s) :
    Keeps known (Run.stmt invoke body isEntry place s) (LeadsOn body returns place) := by
  have member := List.mem_of_getElem? get
  obtain ⟨flat, typed, vars, calls⟩ := safe.statements s member
  have targets := safe.targets s member
  have leads (target : Nat) (leads : s.LeadsTo body place target) :
      LeadsOn body returns place (.goto target) := ⟨s, get, leads⟩
  have hasValue {t : Ty} {e : Expr} (fits : e.Fits (fun _ => True) t) :=
    Expr.not_void_call fits.hasValue
  cases s with
  | declare v e =>
    obtain ⟨isKnown, varsE⟩ := List.forall_mem_cons.1 vars
    refine (Expr.eval_keeps invokes typed.2.wellTyped varsE calls (hasValue typed.2)).bind
      fun value hasType => ?_
    exact (Keeps.write isKnown (typed.2.ty ▸ hasType)).bind fun _ _ => .pure (leads _ rfl)
  | expr e =>
    have next : Keeps known (pure (.goto (place + 1))) (LeadsOn body returns place) :=
      .pure (leads _ rfl)
    refine (Expr.evalAlone_keeps invokes typed vars calls).bind fun value _ => ?_
    dsimp only
    split
    · exact Keeps.bind (P := fun _ => True) (.modify (fun _ => ⟨rfl, rfl⟩) trivial) fun _ _ => next
    · exact next
  | label l => exact .pure (leads _ rfl)
  | goto l => exact Run.jump_keeps (targets l List.mem_cons_self) leads
  | gotoIf l c value =>
    refine (Expr.eval_keeps invokes typed.wellTyped vars calls (hasValue typed)).bind
      fun result hasType => ?_
    obtain ⟨b, rfl⟩ := Value.eq_bool (typed.ty ▸ hasType)
    dsimp only
    split
    · exact Run.jump_keeps (targets l List.mem_cons_self) fun target found => leads target (.inl found)
    · exact .pure (leads _ (.inr rfl))
  | ret value =>
    cases value with
    | none => exact .pure fun notVoid => absurd (Option.some.inj typed) notVoid
    | some e =>
      obtain ⟨t, isSome, fits⟩ := typed
      obtain rfl := Option.some.inj isSome
      refine (Expr.eval_keeps invokes fits.wellTyped vars calls (hasValue fits)).bind
        fun value hasType => ?_
      exact .pure fun _ => ⟨value, rfl, fits.ty ▸ hasType⟩
  | _ => contradiction

end

namespace Program

variable {known : Var → Prop} {p : Program} {limit : Option Nat} (safe : p.Safe known)
  (unique : ToldApart known)

include safe unique

theorem callee_keeps {fuel : Nat}
    (bodies : ∀ f body, FnSafe known (Callable p.units) (f, body) →
      Keeps known (p.runFrom limit fuel body 0) f.Gives) :
    CallsKeep known (Callable p.units) (p.callee limit fuel) := by
  refine ⟨unique, fun f args userMade callable fit => ?_⟩
  have hasBody := callable.resolve_left (by simp [userMade])
  obtain ⟨body, found, fnSafe⟩ := safe.body? hasBody
  unfold callee invoke
  refine .get_bind fun s => ?_
  cases s.reached? limit with
  | some n => exact .fault (allowed_of_no_defect fun d => by simp)
  | none =>
    simp only [found]
    exact .inFrame (.ofArguments fnSafe.parameters fit) (bodies f body fnSafe)

theorem runFrom_keeps (fuel : Nat) {f : Fn} {body : Body}
    (fnSafe : FnSafe known (Callable p.units) (f, body)) {place : Nat}
    (path : Relation.ReflTransGen body.LeadsTo 0 place) :
    Keeps known (p.runFrom limit fuel body place) f.Gives := by
  induction fuel generalizing f body place with
  | zero =>
    intro s typed
    exact ⟨typed, fun d equal => by contradiction⟩
  | succ fuel ih =>
    intro s typed
    cases get : body[place]? with
    | none =>
      rw [p.runFrom_end limit fuel get]
      refine ⟨typed, fun notVoid => ?_⟩
      have inside : place < body.length := fnSafe.body.inside notVoid place path
      rw [List.getElem?_eq_none_iff] at get
      omega
    | some stmt =>
      rw [p.runFrom_succ limit fuel get]
      have invokes : CallsKeep known (Callable p.units) (p.callee limit fuel) :=
        callee_keeps safe unique fun g callee calleeSafe => ih calleeSafe .refl
      have step := Run.stmt_keeps invokes fnSafe.body s.inEntry get s typed
      cases given : Run.stmt (p.callee limit fuel) body s.inEntry place stmt s with
      | ok next t =>
        rw [given] at step
        cases next with
        | goto target => exact ih fnSafe (path.tail step.2) t step.1
        | ret r => exact ⟨step.1, step.2⟩
      | error stop t =>
        rw [given] at step
        exact step

theorem execute_keeps (limit : Option Nat) (fuel : Nat) :
    Keeps known (p.execute limit fuel) fun _ => True := by
  unfold execute executeWith
  split
  · exact .fault (allowed_of_no_defect fun d => by simp)
  · cases entry : p.entry with
    | none => exact .pure trivial
    | some e =>
      obtain ⟨f, hasBody, same⟩ := safe.entry e entry
      obtain ⟨body, found⟩ := body?_of_hasBody hasBody same
      obtain ⟨g, member, _⟩ := mem_of_body? found
      simp only [found]
      refine (Keeps.inFrame .empty (runFrom_keeps safe unique fuel (safe.bodies _ member)
        .refl)).bind fun value _ => ?_
      exact .get_bind fun s => .pure trivial

/-- A run of a safe program on typed globals leaves typed globals, and ends with no defect but
a variable without a value. -/
theorem evaluate_keeps {globals : Store} (typed : globals.Typed known) (fuel : Nat) (host : Host) :
    (p.evaluate limit fuel globals host).globals.Typed known ∧
      ∀ stop, (p.evaluate limit fuel globals host).result = .error stop → stop.Allowed := by
  have start : State.Typed known { globals, frames := [], host, last := none } :=
    ⟨typed, fun _ member => absurd member List.not_mem_nil⟩
  have runs := execute_keeps safe unique limit fuel _ start
  unfold evaluate Run.outcome
  cases given : p.execute limit fuel { globals, frames := [], host, last := none } with
  | ok value t =>
    rw [given] at runs
    exact ⟨runs.1.globals, fun stop equal => by contradiction⟩
  | error stop t =>
    rw [given] at runs
    refine ⟨runs.1.globals, fun other equal => ?_⟩
    obtain rfl := Except.error.inj equal
    exact runs.2

end Program

end ScriptLang
