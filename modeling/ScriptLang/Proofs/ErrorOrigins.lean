import ScriptLang.Proofs.ActivationRuns
import ScriptLang.Proofs.ErrorFreeCode

/-! A run that ends at an error expression has come to it, and before that to a statement that holds
it. Each statement that a run comes to stands in a body of a function at which the run starts or which
it calls. -/

namespace ScriptLang

/-- The computation does not stop at an error expression by itself. -/
def AvoidsError {α : Type} (x : Run α) : Prop :=
  ∀ s t, x s ≠ .error (.fault (.defect .errorExpression)) t

namespace AvoidsError

variable {α β : Type}

theorem pure (a : α) : AvoidsError (Pure.pure a) := by
  intro s t stops
  contradiction

theorem fault {f : Fault} (other : f ≠ .defect .errorExpression) :
    AvoidsError (Run.fault f : Run α) := by
  intro s t stops
  cases stops
  exact other rfl

theorem ofExcept (result : Except OperatorFault α) : AvoidsError (Run.ofExcept result) := by
  cases result with
  | ok a => exact pure a
  | error e => cases e <;> exact fault (by simp [OperatorFault.toFault])

theorem bind {x : Run α} {f : α → Run β} (first : AvoidsError x)
    (second : ∀ a, AvoidsError (f a)) : AvoidsError (x >>= f) := by
  intro s t stops
  rcases Run.error_of_bind stops with stops | ⟨a, u, _, stops⟩
  · exact first s t stops
  · exact second a u t stops

theorem modify (f : State → State) : AvoidsError (modify f : Run PUnit) := by
  intro s t stops
  contradiction

theorem get : AvoidsError (MonadState.get : Run State) := by
  intro s t stops
  contradiction

theorem read (v : Var) : AvoidsError (Run.read v) := by
  intro s t
  rw [Run.read_apply]
  cases s.read? v <;> simp

end AvoidsError

theorem Builtin.run_avoidsError (b : Builtin) (args : List Value) : AvoidsError (b.run args) := by
  unfold Builtin.run
  split
  · exact .bind (.modify _) fun _ => .pure none
  · refine .bind .get fun s => ?_
    split
    · exact .bind (.modify _) fun _ => .pure _
    · exact .fault (by simp)
  · exact .bind .get fun s => .bind (.modify _) fun _ => .pure _
  · exact .fault (by simp)

theorem Run.jump_avoidsError (body : Body) (l : Label) : AvoidsError (Run.jump body l) := by
  unfold Run.jump
  split
  · exact .pure _
  · exact .fault (by simp)

namespace Program

/-- If the computation stops at an error expression, a run that starts at the point comes to one. -/
def Meets {α : Type} (p : Program) (limit : Option Nat) (point : Point) (x : Run α) (s : State) :
    Prop :=
  ∀ t, x s = .error (.fault (.defect .errorExpression)) t →
    ∃ n u, Relation.ReflTransGen (p.LeadsInto limit) point ⟨n, .eval .error, u⟩

variable {p : Program} {limit : Option Nat}

namespace Meets

variable {α β : Type} {point first second : Point} {s : State}

theorem of_avoids {x : Run α} (avoids : AvoidsError x) : p.Meets limit point x s :=
  fun t stops => (avoids s t stops).elim

theorem bind {x : Run α} {f : α → Run β} (here : p.Meets limit point x s)
    (behind : ∀ a u, x s = .ok a u → p.Meets limit point (f a) u) :
    p.Meets limit point (x >>= f) s := by
  intro t stops
  rcases Run.error_of_bind stops with stops | ⟨a, u, given, stops⟩
  · exact here t stops
  · exact behind a u given t stops

/-- What is met from a later point on is met from an earlier one on. -/
theorem into {x : Run α} (meets : p.Meets limit second x s) (leads : p.LeadsInto limit first second) :
    p.Meets limit first x s := by
  intro t stops
  obtain ⟨n, u, path⟩ := meets t stops
  exact ⟨n, u, path.head leads⟩

theorem inFrame {x : Run α} {frame : Store}
    (meets : p.Meets limit point x { s with frames := frame :: s.frames }) :
    p.Meets limit point (Run.inFrame frame x) s := by
  intro t stops
  rw [Run.inFrame_apply] at stops
  cases given : x { s with frames := frame :: s.frames } with
  | ok a u =>
    rw [given] at stops
    contradiction
  | error stop u =>
    rw [given] at stops
    cases stops
    exact meets u given

end Meets

section

variable {n : Nat}

def CallsMeet (p : Program) (limit : Option Nat) (n : Nat) : Prop :=
  ∀ f values s, p.Meets limit ⟨n, .call f values, s⟩ (f.apply (p.callee limit n) values) s

mutual

theorem eval_meets (calls : p.CallsMeet limit n) (e : Expr) (s : State) :
    p.Meets limit ⟨n, .eval e, s⟩ (e.eval (p.callee limit n)) s := by
  cases e with
  | error => exact fun t _ => ⟨n, s, .refl⟩
  | literal value => exact .of_avoids (.pure value)
  | range => exact .of_avoids (.fault (by simp))
  | var v =>
    simp only [Expr.eval]
    cases v.constant with
    | some value => exact .of_avoids (.pure value)
    | none => exact .of_avoids (.read v)
  | assign v e =>
    refine ((eval_meets calls e s).into .assigned).bind fun value u _ => ?_
    exact .of_avoids (.bind (.modify _) fun _ => .pure value)
  | unary op e =>
    simp only [Expr.eval]
    cases known : (Expr.unary op e).constant? with
    | some value => exact .of_avoids (.pure value)
    | none =>
      exact ((eval_meets calls e s).into (.operand known)).bind fun value u _ =>
        .of_avoids (.ofExcept _)
  | convert target e =>
    simp only [Expr.eval]
    cases known : (Expr.convert target e).constant? with
    | some value => exact .of_avoids (.pure value)
    | none =>
      exact ((eval_meets calls e s).into (.converted known)).bind fun value u _ =>
        .of_avoids (.ofExcept _)
  | binary l op r =>
    simp only [Expr.eval]
    cases known : (Expr.binary l op r).constant? with
    | some value => exact .of_avoids (.pure value)
    | none =>
      refine ((eval_meets calls l s).into (.left known)).bind fun left u given => ?_
      cases decided : op.action.shortCircuit? left with
      | some b => exact .of_avoids (.pure _)
      | none =>
        exact ((eval_meets calls r u).into (.right known given decided)).bind fun right u' _ =>
          .of_avoids (.ofExcept _)
  | call f es =>
    refine ((evalArgs_meets calls es s).into .callArgs).bind fun values u given => ?_
    refine ((calls f values u).into (.call given)).bind fun result u' _ => ?_
    cases result with
    | some value => exact .of_avoids (.pure value)
    | none => exact .of_avoids (.fault (by simp))

theorem evalArgs_meets (calls : p.CallsMeet limit n) (es : List Expr) (s : State) :
    p.Meets limit ⟨n, .args es, s⟩ (Expr.evalArgs (p.callee limit n) es) s := by
  cases es with
  | nil => exact .of_avoids (.pure [])
  | cons e es =>
    refine ((eval_meets calls e s).into .argument).bind fun value u given => ?_
    exact ((evalArgs_meets calls es u).into (.arguments given)).bind fun values u' _ =>
      .of_avoids (.pure _)

end

theorem evalAlone_meets (calls : p.CallsMeet limit n) (e : Expr) (s : State) :
    p.Meets limit ⟨n, .alone e, s⟩ (e.evalAlone (p.callee limit n)) s := by
  have other (noCall : ∀ f es, e ≠ .call f es) : p.Meets limit ⟨n, .alone e, s⟩
      (do return some (← e.eval (p.callee limit n))) s :=
    ((eval_meets calls e s).into (.alone noCall)).bind fun value u _ => .of_avoids (.pure _)
  cases e with
  | call f es =>
    exact ((evalArgs_meets calls es s).into .aloneArgs).bind fun values u given =>
      (calls f values u).into (.aloneCall given)
  | _ => exact other (by simp)

theorem stmt_meets (calls : p.CallsMeet limit n) {body : Body} {place : Nat} {stmt : Stmt}
    (get : body[place]? = some stmt) (s : State) :
    p.Meets limit ⟨n + 1, .run body place, s⟩
      (Run.stmt (p.callee limit n) body s.inEntry place stmt) s := by
  cases stmt with
  | declare v e =>
    refine ((eval_meets calls e s).into (.declared get)).bind fun value u _ => ?_
    exact .of_avoids (.bind (.modify _) fun _ => .pure _)
  | expr e =>
    refine ((evalAlone_meets calls e s).into (.stands get)).bind fun value u _ => ?_
    dsimp only
    split
    · exact .of_avoids (.bind (.modify _) fun _ => .pure _)
    · exact .of_avoids (.pure _)
  | gotoIf l c value =>
    refine ((eval_meets calls c s).into (.tested get)).bind fun result u _ => ?_
    cases result with
    | bool b =>
      dsimp only
      split
      · exact .of_avoids (Run.jump_avoidsError body l)
      · exact .of_avoids (.pure _)
    | _ => exact .of_avoids (.fault (by simp))
  | ret value =>
    cases value with
    | none => exact .of_avoids (.pure _)
    | some e =>
      exact ((eval_meets calls e s).into (.returned get)).bind fun value u _ => .of_avoids (.pure _)
  | label l => exact .of_avoids (.pure _)
  | goto l => exact .of_avoids (Run.jump_avoidsError body l)
  | _ => exact .of_avoids (.fault (by simp))

theorem callsMeet (runs : ∀ body s, p.Meets limit ⟨n, .run body 0, s⟩ (p.runFrom limit n body 0) s) :
    p.CallsMeet limit n := by
  intro f values s
  unfold Fn.apply
  cases isBuiltin : f.builtin with
  | some b => exact .of_avoids (b.run_avoidsError values)
  | none =>
    refine .bind (.of_avoids .get) fun s' u same => ?_
    cases same
    cases allowed : s.reached? limit with
    | some m => exact .of_avoids (.fault (by simp))
    | none =>
      cases found : p.body? f with
      | none => exact .of_avoids (.fault (by simp))
      | some body => exact ((runs body _).into (.body isBuiltin allowed found)).inFrame

end

theorem runFrom_meets (n : Nat) (body : Body) (place : Nat) (s : State) :
    p.Meets limit ⟨n, .run body place, s⟩ (p.runFrom limit n body place) s := by
  induction n generalizing body place s with
  | zero =>
    intro t stops
    have runsOut : p.runFrom limit 0 body place s = .error .outOfFuel s := rfl
    simp [runsOut] at stops
  | succ n ih =>
    intro t stops
    cases get : body[place]? with
    | none =>
      rw [p.runFrom_end limit n get] at stops
      contradiction
    | some stmt =>
      rw [p.runFrom_succ limit n get] at stops
      cases given : Run.stmt (p.callee limit n) body s.inEntry place stmt s with
      | error stop u =>
        rw [given] at stops
        cases stops
        exact stmt_meets (callsMeet fun body => ih body 0) get s _ given
      | ok next u =>
        rw [given] at stops
        cases next with
        | goto target => exact (ih body target u).into (.next get given) t stops
        | ret value => contradiction

theorem execute_meets (limit : Option Nat) (fuel : Nat) (globals : Store) (host : Host) {t : State}
    (stops : p.execute limit fuel { globals, frames := [], host, last := none } =
      .error (.fault (.defect .errorExpression)) t) :
    ∃ n s, p.Reaches limit fuel globals host ⟨n, .eval .error, s⟩ := by
  unfold execute executeWith at stops
  split at stops
  · exact (AvoidsError.fault (by simp) _ _ stops).elim
  next noErrors =>
    cases isEntry : p.entry with
    | none =>
      rw [isEntry] at stops
      exact (AvoidsError.pure _ _ _ stops).elim
    | some entry =>
      rw [isEntry] at stops
      cases found : p.body? entry with
      | none =>
        simp only [found] at stops
        exact (AvoidsError.fault (by simp) _ _ stops).elim
      | some body =>
        simp only [found] at stops
        have meets : p.Meets limit ⟨fuel, .run body 0, { globals, frames := [.empty], host, last := none }⟩
            (p.runFrom limit fuel body 0) _ := runFrom_meets fuel body 0 _
        obtain ⟨n, u, path⟩ := meets.inFrame.bind
          (fun value u _ => .of_avoids (.bind .get fun _ => .pure _)) t stops
        exact ⟨n, u, _, ⟨Bool.eq_false_iff.2 noErrors, entry, body, isEntry, found, rfl⟩, path⟩

/-- An evaluation that ends at an error expression has come to it. -/
theorem reaches_error {fuel : Nat} {globals : Store} {host : Host}
    (ends : (p.evaluate limit fuel globals host).result =
      .error (.fault (.defect .errorExpression))) :
    ∃ n s, p.Reaches limit fuel globals host ⟨n, .eval .error, s⟩ := by
  unfold evaluate Run.outcome at ends
  cases given : p.execute limit fuel { globals, frames := [], host, last := none } with
  | ok value t =>
    rw [given] at ends
    contradiction
  | error stop t =>
    rw [given] at ends
    obtain rfl := Except.error.inj ends
    exact execute_meets limit fuel globals host given

def Enters (p : Program) (limit : Option Nat) (fuel : Nat) (globals : Store) (host : Host) (f : Fn) :
    Prop :=
  ∃ g : Fn, g.id = f.id ∧
    (p.entry = some g ∨ ∃ n values s, p.Reaches limit fuel globals host ⟨n, .call g values, s⟩)

def ComesTo (p : Program) (limit : Option Nat) (fuel : Nat) (globals : Store) (host : Host)
    (body : Body) (stmt : Stmt) : Prop :=
  ∃ n place s, p.Reaches limit fuel globals host ⟨n, .run body place, s⟩ ∧ body[place]? = some stmt

end Program

def Task.holdsError : Task → Bool
  | .eval e | .alone e => e.holdsError
  | .args es => Expr.anyHoldsError es
  | .call _ _ | .run _ _ => false

namespace Program

variable {p : Program} {limit : Option Nat} {fuel : Nat} {globals : Store} {host : Host}

/-- A task that holds an error expression has it from the task before it, or from a statement. -/
theorem LeadsInto.holdsError {first second : Point} (leads : p.LeadsInto limit first second)
    (holds : second.task.holdsError = true) :
    first.task.holdsError = true ∨ ∃ n body place s stmt, first = ⟨n, .run body place, s⟩ ∧
      body[place]? = some stmt ∧ stmt.holdsError = true := by
  cases leads with
  | assigned | operand _ | converted _ | callArgs | aloneArgs | alone _ => exact .inl holds
  | left _ | argument => exact .inl (Bool.or_eq_true_iff.2 (.inl holds))
  | right _ _ _ | arguments _ => exact .inl (Bool.or_eq_true_iff.2 (.inr holds))
  | declared get | stands get | tested get | returned get =>
    exact .inr ⟨_, _, _, _, _, rfl, get, holds⟩
  | call _ | aloneCall _ | body _ _ _ | next _ _ => contradiction

theorem Reaches.holdsError {point : Point} (reached : p.Reaches limit fuel globals host point)
    (holds : point.task.holdsError = true) :
    ∃ body stmt, p.ComesTo limit fuel globals host body stmt ∧ stmt.holdsError = true := by
  obtain ⟨start, starts, path⟩ := reached
  induction path with
  | refl =>
    obtain ⟨_, _, _, _, _, rfl⟩ := starts
    contradiction
  | tail path step ih =>
    rcases step.holdsError holds with before | ⟨n, body, place, s, stmt, rfl, get, isHeld⟩
    · exact ih before
    · exact ⟨body, stmt, ⟨n, place, s, ⟨start, starts, path⟩, get⟩, isHeld⟩

/-- Whatever body is run belongs to a function that the run enters. -/
theorem Reaches.enters {n place : Nat} {body : Body} {s : State}
    (reached : p.Reaches limit fuel globals host ⟨n, .run body place, s⟩) :
    ∃ q ∈ p.units.flatten, q.2 = body ∧ p.Enters limit fuel globals host q.1 := by
  obtain ⟨start, starts, path⟩ := reached
  generalize isPoint : (⟨n, .run body place, s⟩ : Point) = point at path
  induction path generalizing n place s with
  | refl =>
    obtain ⟨_, entry, body', isEntry, found, rfl⟩ := starts
    cases isPoint
    obtain ⟨g, member, same⟩ := mem_of_body? found
    exact ⟨(g, body), member, rfl, entry, same.symm, .inl isEntry⟩
  | tail path step ih =>
    subst isPoint
    cases step with
    | @body _ f values before _ _ _ found =>
      obtain ⟨g, member, same⟩ := mem_of_body? found
      exact ⟨(g, body), member, rfl, f, same.symm, .inr ⟨_, values, before, start, starts, path⟩⟩
    | next get given => exact ih rfl

/-- A run stays within functions that call only one another, if its entry is one of them. -/
theorem Enters.within {P : Fn → Prop} {f : Fn} (enters : p.Enters limit fuel globals host f)
    (entry : ∀ g, p.entry = some g → P g)
    (closed : ∀ g body, P g → p.body? g = some body → ∀ s ∈ body, ∀ h ∈ s.calls, P h) :
    ∃ g : Fn, g.id = f.id ∧ P g := by
  obtain ⟨g, same, isEntry | ⟨n, values, s, reached⟩⟩ := enters
  · exact ⟨g, same, entry g isEntry⟩
  · exact ⟨g, same, reached.callsWithin (fun g body isEntry => closed g body (entry g isEntry)) closed⟩

end Program

end ScriptLang
