import ScriptLang.Proofs.ActivationRuns
import ScriptLang.Proofs.Alike
import ScriptLang.Proofs.CompiledWrites
import ScriptLang.Proofs.StandingCode

/-! A run that ends without a fault gives the value of the expression that the entry function has
evaluated last of those that stand alone in its code. What the functions do that it calls does
not count. In compiled code these are the expressions that stand alone in the source, and the
steps of `for` loops. -/

namespace ScriptLang

/-- So many calls are active at least, and this is the value of the last expression that stood
alone. -/
structure State.Recorded (last : Option Value) (depth : Nat) (s : State) : Prop where
  last : s.last = last
  depth : depth ≤ s.frames.length

theorem State.Recorded.write {s : State} {last : Option Value} {depth : Nat}
    (holds : s.Recorded last depth) (v : Var) (value : Value) : (s.write v value).Recorded last depth :=
  ⟨(s.last_write v value).trans holds.last, (s.length_write v value).symm ▸ holds.depth⟩

/-- Inside of a call the entry function is not the only active one. -/
theorem State.not_inEntry {s : State} (deep : 2 ≤ s.frames.length) : s.inEntry = false := by
  unfold inEntry
  split
  next frames =>
    rw [frames, List.length_singleton] at deep
    omega
  · rfl

theorem State.inEntry_of_length {s : State} (one : s.frames.length = 1) : s.inEntry = true := by
  obtain ⟨frame, frames⟩ := List.length_eq_one_iff.1 one
  simp [inEntry, frames]

namespace Program

variable (p : Program) (limit : Option Nat) {last : Option Value} {depth : Nat}

theorem callee_recorded {fuel : Nat}
    (runs : ∀ body, Maintains (State.Recorded last (depth + 1)) (p.runFrom limit fuel body 0))
    (f : Fn) (args : List Value) :
    Maintains (State.Recorded last depth) (f.apply (p.callee limit fuel) args) := by
  refine p.callee_maintains limit (fun _ _ holds => ⟨holds.last, holds.depth⟩) args
    fun _ callee _ => ?_
  refine .inFrame (runs callee) (fun s holds => ⟨holds.last, Nat.succ_le_succ holds.depth⟩)
    fun s holds => ⟨holds.last, ?_⟩
  have deep := holds.depth
  rw [List.length_tail]
  omega

theorem runFrom_recorded (deep : 2 ≤ depth) (fuel : Nat) (body : Body) (place : Nat) :
    Maintains (State.Recorded last depth) (p.runFrom limit fuel body place) := by
  induction fuel using Nat.strongRecOn generalizing body place depth with
  | ind fuel ih =>
    refine p.runFrom_maintains limit fuel (fun n bound s _ isEntry place active => ?_) place
    refine Run.stmt_maintains body isEntry place (fun v _ value s holds => holds.write v value)
      (fun f _ args => p.callee_recorded limit (fun callee => ih n bound (by omega) callee 0) f args)
      fun entry => ?_
    obtain ⟨t, holds, rfl⟩ := active
    rw [State.not_inEntry (Nat.le_trans deep holds.depth)] at entry
    contradiction

/-- A statement of the entry function that is no expression leaves the last value as it is. -/
theorem stmt_keepsLast {fuel : Nat} {body : Body} {isEntry : Bool} {place : Nat} {stmt : Stmt}
    {s t : State} {next : Next} (active : 1 ≤ s.frames.length) (other : ¬stmt.StandsAlone)
    (given : Run.stmt (p.callee limit fuel) body isEntry place stmt s = .ok next t) :
    t.last = s.last := by
  have keeps : Maintains (State.Recorded s.last 1)
      (Run.stmt (p.callee limit fuel) body isEntry place stmt) := by
    refine Run.stmt_maintains body isEntry place (fun v _ value s holds => holds.write v value)
      (fun f _ args => ?_) fun _ stands => absurd stands other
    exact p.callee_recorded limit (fun callee => p.runFrom_recorded limit (Nat.le_refl 2) fuel callee 0)
      f args
  exact (keeps.of_ok ⟨rfl, active⟩ given).last

/-- An expression that stands alone in the entry function leaves its value. -/
theorem expr_leaves {invoke : Invoke} {body : Body} {place : Nat} {e : Expr} {s t : State}
    {next : Next} (given : Run.stmt invoke body true place (.expr e) s = .ok next t) :
    ∃ (value : Option Value) (u : State), e.evalAlone invoke s = .ok value u ∧
      next = .goto (place + 1) ∧ t = { u with last := value } := by
  obtain ⟨value, u, evaluated, rest⟩ := Run.ok_of_bind given
  cases rest
  exact ⟨value, u, evaluated, rfl, rfl⟩

/-- At the point the entry function is about to evaluate an expression that stands alone. It has
the value, and the function evaluates no other one afterwards. -/
inductive LastAlone (e : Expr) (value : Option Value) : Point → Prop
  | intro {n body place s t} (inEntry : s.frames.length = 1) (get : body[place]? = some (.expr e))
      (given : e.evalAlone (p.callee limit n) s = .ok value t)
      (never : ∀ later, Relation.ReflTransGen (p.LeadsInto limit)
        ⟨n, .run body (place + 1), { t with last := value }⟩ later → ¬later.IsAt Stmt.StandsAlone 0) :
      LastAlone e value ⟨n + 1, .run body place, s⟩

variable {p limit}

/-- While no other call is entered, a task that is no body leads to no body. -/
theorem inside_task {first later : Point}
    (path : Relation.ReflTransGen (p.LeadsInto limit) first later)
    (noBody : ∀ body place, first.task ≠ .run body place) :
    first.state.frames.length < later.state.frames.length ∨
      ∀ body place, later.task ≠ .run body place := by
  induction path with
  | refl => exact .inr noBody
  | @tail before later way step ih =>
    rcases ih with deeper | noBody
    · exact .inl (Nat.lt_of_lt_of_le deeper (frames_le (.single step)))
    · have le := frames_le way
      cases step with
      | body userMade allowed found =>
        refine .inl ?_
        rw [List.length_cons]
        exact Nat.lt_succ_of_le le
      | declared _ | stands _ | tested _ | returned _ | next _ _ => exact absurd rfl (noBody _ _)
      | _ => exact .inr (by simp)

/-- A statement leads to the statement after it, or into a task that is no body. -/
theorem LeadsInto.from_statement {n : Nat} {body : Body} {place : Nat} {s : State} {second : Point}
    (leads : p.LeadsInto limit ⟨n + 1, .run body place, s⟩ second) :
    (∃ stmt target t, body[place]? = some stmt ∧
      Run.stmt (p.callee limit n) body s.inEntry place stmt s = .ok (.goto target) t ∧
      second = ⟨n, .run body target, t⟩) ∨
    ((∃ stmt, body[place]? = some stmt) ∧ second.state = s ∧
      ∀ body place, second.task ≠ .run body place) := by
  cases leads with
  | next get given => exact .inl ⟨_, _, _, get, given, rfl⟩
  | declared get | stands get | tested get | returned get => exact .inr ⟨⟨_, get⟩, rfl, by simp⟩

/-- From a statement that is no expression, the entry function comes to expressions that stand
alone only behind the statement. -/
theorem never_at {n : Nat} {body : Body} {place : Nat} {s : State} (inEntry : s.frames.length = 1)
    (other : ∀ e, body[place]? ≠ some (.expr e))
    (behind : ∀ stmt target t, body[place]? = some stmt →
      Run.stmt (p.callee limit n) body s.inEntry place stmt s = .ok (.goto target) t →
      ∀ later, Relation.ReflTransGen (p.LeadsInto limit) ⟨n, .run body target, t⟩ later →
        ¬later.IsAt Stmt.StandsAlone 0) :
    ∀ later, Relation.ReflTransGen (p.LeadsInto limit) ⟨n + 1, .run body place, s⟩ later →
      ¬later.IsAt Stmt.StandsAlone 0 := by
  intro later path
  rcases Relation.ReflTransGen.cases_head path with rfl | ⟨second, step, path⟩
  · rintro ⟨_, code, target, _, isRun, get, e, rfl⟩
    obtain ⟨rfl, rfl⟩ := Task.run.inj isRun
    exact other e get
  · rcases step.from_statement with ⟨stmt, target, t, get, given, rfl⟩ | ⟨_, same, noBody⟩
    · exact behind stmt target t get given later path
    · rintro ⟨callers, code, target, _, isRun, _⟩
      have callers : later.state.frames.length - 1 = 0 := callers
      rcases inside_task path noBody with deeper | noBody
      · rw [same] at deeper
        omega
      · exact noBody code target isRun

/-- The same for a statement that has been run. -/
theorem never_behind {n : Nat} {body : Body} {place : Nat} {stmt : Stmt} {s u : State} {next : Next}
    (inEntry : s.frames.length = 1) (get : body[place]? = some stmt)
    (ran : Run.stmt (p.callee limit n) body s.inEntry place stmt s = .ok next u)
    (other : ¬stmt.StandsAlone)
    (behind : ∀ target, next = .goto target → ∀ later,
      Relation.ReflTransGen (p.LeadsInto limit) ⟨n, .run body target, u⟩ later →
        ¬later.IsAt Stmt.StandsAlone 0) :
    ∀ later, Relation.ReflTransGen (p.LeadsInto limit) ⟨n + 1, .run body place, s⟩ later →
      ¬later.IsAt Stmt.StandsAlone 0 := by
  refine never_at inEntry (fun e isExpr => ?_) fun stmt' target t get' ran' => ?_
  · exact other ⟨e, Option.some.inj (get.symm.trans isExpr)⟩
  · obtain rfl := Option.some.inj (get.symm.trans get')
    rw [ran] at ran'
    cases ran'
    exact behind target rfl

/-- A run of the entry function leaves the value of the expression that stood alone last, or the
value from before if there was none. -/
theorem runFrom_last {fuel : Nat} {body : Body} {place : Nat} {s t : State} {result : Option Value}
    (inEntry : s.frames.length = 1) (given : p.runFrom limit fuel body place s = .ok result t) :
    (t.last = s.last ∧ ∀ later,
      Relation.ReflTransGen (p.LeadsInto limit) ⟨fuel, .run body place, s⟩ later →
        ¬later.IsAt Stmt.StandsAlone 0) ∨
    ∃ point e, Relation.ReflTransGen (p.LeadsInto limit) ⟨fuel, .run body place, s⟩ point ∧
      p.LastAlone limit e t.last point := by
  induction fuel generalizing place s with
  | zero => cases given
  | succ n ih =>
    have entry : s.inEntry = true := State.inEntry_of_length inEntry
    cases get : body[place]? with
    | none =>
      rw [p.runFrom_end limit n get] at given
      cases given
      exact .inl ⟨rfl, never_at inEntry (by simp [get]) (by simp [get])⟩
    | some stmt =>
      rw [p.runFrom_succ limit n get] at given
      cases ran : Run.stmt (p.callee limit n) body s.inEntry place stmt s with
      | error stop u =>
        rw [ran] at given
        cases given
      | ok next u =>
        rw [ran] at given
        cases next with
        | ret value =>
          cases given
          have other : ¬stmt.StandsAlone := by
            rintro ⟨e, rfl⟩
            rw [entry] at ran
            obtain ⟨_, _, _, goes, _⟩ := expr_leaves ran
            contradiction
          exact .inl ⟨p.stmt_keepsLast limit (by omega) other ran,
            never_behind inEntry get ran other (by simp)⟩
        | goto target =>
          have step : p.LeadsInto limit ⟨n + 1, .run body place, s⟩ ⟨n, .run body target, u⟩ :=
            .next get ran
          have inEntry' : u.frames.length = 1 := by
            refine Eq.trans (step.frames_or_enters.resolve_right ?_) inEntry
            rintro ⟨⟨f, values, isCall⟩, _⟩
            cases isCall
          rcases ih inEntry' given with ⟨same, never⟩ | ⟨point, e, path, isLast⟩
          · by_cases stands : stmt.StandsAlone
            · obtain ⟨e, rfl⟩ := stands
              rw [entry] at ran
              obtain ⟨value, v, evaluated, goes, rfl⟩ := expr_leaves ran
              cases goes
              exact .inr ⟨_, e, .refl, same ▸ .intro inEntry get evaluated never⟩
            · refine .inl ⟨same.trans (p.stmt_keepsLast limit (by omega) stands ran),
                never_behind inEntry get ran stands ?_⟩
              rintro _ ⟨⟩
              exact never
          · exact .inr ⟨point, e, .head step path, isLast⟩

/-- Only a return with an expression gives a value. -/
theorem returned_value {invoke : Invoke} {body : Body} {isEntry : Bool} {place : Nat} {stmt : Stmt}
    {s t : State} {value : Option Value}
    (given : Run.stmt invoke body isEntry place stmt s = .ok (.ret value) t) :
    value = none ∨ ∃ e, stmt = .ret (some e) := by
  have noJump (l : Label) {u : State} : Run.jump body l u ≠ .ok (.ret value) t := by
    intro jumped
    unfold Run.jump at jumped
    cases found : body.labelPlace? l with
    | none => simp only [found] at jumped; cases jumped
    | some place => simp only [found] at jumped; cases jumped
  cases stmt with
  | declare v e =>
    obtain ⟨_, _, _, rest⟩ := Run.ok_of_bind given
    obtain ⟨_, _, _, rest⟩ := Run.ok_of_bind rest
    cases rest
  | expr e =>
    obtain ⟨_, _, _, rest⟩ := Run.ok_of_bind given
    cases isEntry <;> cases rest
  | goto l => exact absurd given (noJump l)
  | gotoIf l c jumpIf =>
    obtain ⟨result, u, _, rest⟩ := Run.ok_of_bind given
    cases result with
    | bool b =>
      by_cases jumps : b = jumpIf
      · simp only [if_pos jumps] at rest
        exact absurd rest (noJump l)
      · simp only [if_neg jumps] at rest
        cases rest
    | _ => cases rest
  | ret result =>
    cases result with
    | none =>
      cases given
      exact .inl rfl
    | some e => exact .inr ⟨e, rfl⟩
  | _ => cases given

/-- Code without such returns gives no value. -/
theorem runFrom_none {fuel : Nat} {body : Body} {place : Nat} {s t : State} {result : Option Value}
    (noValue : ∀ e, .ret (some e) ∉ body)
    (given : p.runFrom limit fuel body place s = .ok result t) : result = none := by
  induction fuel generalizing place s with
  | zero => cases given
  | succ n ih =>
    cases get : body[place]? with
    | none =>
      rw [p.runFrom_end limit n get] at given
      cases given
      rfl
    | some stmt =>
      rw [p.runFrom_succ limit n get] at given
      cases ran : Run.stmt (p.callee limit n) body s.inEntry place stmt s with
      | error stop u =>
        rw [ran] at given
        cases given
      | ok next u =>
        rw [ran] at given
        cases next with
        | goto target => exact ih given
        | ret value =>
          cases given
          rcases returned_value ran with none | ⟨e, rfl⟩
          · exact none
          · exact absurd (List.mem_of_getElem? get) (noValue e)

/-- A run that ends without a fault is the run of the body of the entry function, if there is an
entry at all. -/
theorem evaluate_ok {fuel : Nat} {globals : Store} {host : Host} {value : Option Value}
    (ends : (p.evaluate limit fuel globals host).result = .ok value) :
    (p.entry = none ∧ value = none) ∨
    ∃ entry body result t, p.diagnostics.hasErrors = false ∧ p.entry = some entry ∧
      p.body? entry = some body ∧
      p.runFrom limit fuel body 0 { globals, frames := [.empty], host, last := none } =
        .ok result t ∧ value = (result <|> t.last) := by
  unfold evaluate Run.outcome at ends
  cases given : p.execute limit fuel { globals, frames := [], host, last := none } with
  | error stop t =>
    rw [given] at ends
    cases ends
  | ok value' t =>
    rw [given] at ends
    obtain rfl := Except.ok.inj ends
    unfold execute executeWith at given
    split at given
    · cases given
    next noErrors =>
      cases isEntry : p.entry with
      | none =>
        simp only [isEntry] at given
        cases given
        exact .inl ⟨rfl, rfl⟩
      | some entry =>
        cases found : p.body? entry with
        | none =>
          simp only [isEntry, found] at given
          cases given
        | some body =>
          simp only [isEntry, found] at given
          obtain ⟨result, u, framed, rest⟩ := Run.ok_of_bind given
          rw [Run.inFrame_apply] at framed
          cases ran : p.runFrom limit fuel body 0
              { globals, frames := [.empty], host, last := none } with
          | error stop v =>
            rw [ran] at framed
            cases framed
          | ok result' v =>
            rw [ran] at framed
            cases framed
            cases rest
            exact .inr ⟨entry, body, result, v, by simpa using noErrors, rfl, found, ran, rfl⟩

/-- A run that ends without a fault gives the value of the expression that stood alone last in the
entry function, and none if there was no such expression. -/
theorem evaluate_last {fuel : Nat} {globals : Store} {host : Host} {value : Option Value}
    (noValue : ∀ entry body, p.entry = some entry → p.body? entry = some body →
      ∀ e, .ret (some e) ∉ body)
    (ends : (p.evaluate limit fuel globals host).result = .ok value) :
    (value = none ∧ ∀ point, p.Reaches limit fuel globals host point →
      ¬point.IsAt Stmt.StandsAlone 0) ∨
    ∃ point e, p.Reaches limit fuel globals host point ∧ p.LastAlone limit e value point := by
  rcases evaluate_ok ends with ⟨noEntry, rfl⟩ |
    ⟨entry, body, result, t, noErrors, isEntry, found, ran, rfl⟩
  · refine .inl ⟨rfl, ?_⟩
    rintro point ⟨_, ⟨_, entry, _, isEntry, _⟩, _⟩
    rw [noEntry] at isEntry
    contradiction
  · obtain rfl := runFrom_none (noValue entry body isEntry found) ran
    have isLast : ((none : Option Value) <|> t.last) = t.last := rfl
    rw [isLast]
    rcases runFrom_last rfl ran with ⟨same, never⟩ | ⟨point, e, path, last⟩
    · refine .inl ⟨same, ?_⟩
      rintro point ⟨_, ⟨_, entry', body', isEntry', found', rfl⟩, path⟩
      obtain rfl := Option.some.inj (isEntry.symm.trans isEntry')
      obtain rfl := Option.some.inj (found.symm.trans found')
      exact never point path
    · exact .inr ⟨point, e, ⟨_, ⟨noErrors, entry, body, isEntry, found, rfl⟩, path⟩, last⟩

end Program

/-- A function that gives no value has no return with an expression. -/
theorem FnSafe.noValue {known : Var → Prop} {callable : Fn → Prop} {f : Fn} {body : Body}
    (safe : FnSafe known callable (f, body)) (void : f.returns = .void) (e : Expr) :
    .ret (some e) ∉ body := by
  intro member
  obtain ⟨t, isVoid, fits⟩ := (safe.body.statements _ member).typed
  obtain rfl := Option.some.inj isVoid
  exact fits.hasValue (fits.ty.trans void)

namespace Compilation

/-- A unit of a chain without errors, run on any globals, gives the value of the last expression
that its entry function evaluates of those that stand alone in its source or are steps of its
`for` loops. It gives none if there is no such expression, or if the last one is a call that has
no value. -/
theorem chain_gives_last (options : Options) (us : List Source.Unit) (next : Nat)
    (noErrors : ∀ c ∈ (chain options us next).1, c.diagnostics.hasErrors = false)
    {c : Compilation} (unit : c ∈ (chain options us next).1) (fuel : Nat) (globals : Store)
    (host : Host) {value : Option Value}
    (ends : (c.evaluate fuel globals host).result = .ok value) :
    (value = none ∧
      ∀ point, c.program.Reaches c.options.maxCallDepth fuel globals host point →
        ¬point.IsAt Stmt.StandsAlone 0) ∨
    ∃ point e, c.program.Reaches c.options.maxCallDepth fuel globals host point ∧
      c.program.LastAlone c.options.maxCallDepth e value point ∧
      ∃ b ∈ boundChain options us next, ∃ p ∈ b.bodies,
        c.program.entry.map Fn.id = some p.1.id ∧ p.2.Counts e := by
  obtain ⟨known, census, safe⟩ := chain_safe options us next noErrors
  have plain : ∀ entry body, c.program.entry = some entry → c.program.body? entry = some body →
      ∀ e, .ret (some e) ∉ body := by
    intro entry body isEntry found
    obtain ⟨f, _, member, _, void⟩ := chain_entry noErrors unit isEntry found
    exact ((safe c unit).program.bodies _ (List.mem_append_left _ member)).noValue void
  refine (Program.evaluate_last plain ends).imp_right ?_
  rintro ⟨point, e, reached, last⟩
  refine ⟨point, e, reached, last, ?_⟩
  obtain ⟨start, ⟨_, entry, body, isEntry, found, rfl⟩, path⟩ := reached
  cases last with
  | intro inEntry get _ _ =>
    obtain ⟨rfl, _⟩ := Program.sameActivation path inEntry rfl
    obtain ⟨f, same, member, _⟩ := chain_entry noErrors unit isEntry found
    rw [chain_eq_compileAll] at unit
    obtain ⟨b, bound, bodies⟩ := exists_of_forall₂ (compileAll_standsAs us) unit
    obtain ⟨p, isBody, stands⟩ := exists_of_forall₂ bodies member
    refine ⟨b, bound, p, isBody, ?_, stands.stands e (List.mem_of_getElem? get)⟩
    rw [isEntry, Option.map_some, ← same]
    exact congrArg (fun f => some f.id) stands.same

end Compilation

namespace LastStep

open Source

/-- ```
var x = 0
for i in 1..3 { if i == 1 { x = 7 } }
``` -/
def unit : Source.Unit := (Sketch.Unit.place ⟨none, [
  .statement (.declare .varKeyword "x" none (.literal (.int 0))),
  .statement (.forIn "i" (.range (.literal (.int 1)) (.literal (.int 3))) (.block [
    .ifThen (.binary (.name "i") .equalsEquals (.literal (.int 1)))
      (.block [.expr (.assign "x" .equals (.literal (.int 7)))])]))]⟩ .start).1

def compiled : Compilation := (Compilation.compile .script unit 0).1

def structured : Program :=
  let bound := (bindUnit true none [] unit 0).1
  { diagnostics := .empty, entry := bound.declarations.entry, bodies := bound.bodies, earlier := [] }

theorem ok_of_toOption {out : Outcome} {value : Option Value}
    (given : out.result.toOption = some value) : out.result = .ok value := by
  cases result : out.result with
  | error stop =>
    rw [result] at given
    contradiction
  | ok value' =>
    rw [result] at given
    exact congrArg Except.ok (Option.some.inj given)

theorem gives_three : (compiled.evaluate 100 .empty .empty).result = .ok (some (.int 3)) :=
  ok_of_toOption (by decide +kernel)

end LastStep

/-- The script ends without an error, and the last expression that stands alone in its source is
`x = 7`. Its value is that of the step of the loop. -/
theorem lastStep_gives_step :
    (∀ c ∈ (Compilation.chain .script [LastStep.unit] 0).1, c.diagnostics.hasErrors = false) ∧
      (LastStep.structured.evaluateStructured false none 100 .empty .empty).result =
        .ok (some (.int 7)) ∧
      (LastStep.compiled.evaluate 100 .empty .empty).result = .ok (some (.int 3)) :=
  ⟨by decide +kernel, LastStep.ok_of_toOption (by decide +kernel), LastStep.gives_three⟩

/-- The value of the script is that of an expression that the entry function evaluates. -/
theorem lastStep_gives_last :
    ∃ point e,
      LastStep.compiled.program.Reaches LastStep.compiled.options.maxCallDepth 100 .empty .empty
        point ∧
      LastStep.compiled.program.LastAlone LastStep.compiled.options.maxCallDepth e (some (.int 3))
        point ∧
      ∃ b ∈ Compilation.boundChain .script [LastStep.unit] 0, ∃ p ∈ b.bodies,
        LastStep.compiled.program.entry.map Fn.id = some p.1.id ∧ p.2.Counts e := by
  have noErrors : ∀ c ∈ (Compilation.chain .script [LastStep.unit] 0).1,
      c.diagnostics.hasErrors = false := by decide +kernel
  have unit : LastStep.compiled ∈ (Compilation.chain .script [LastStep.unit] 0).1 := by
    rw [Compilation.chain_single]
    exact List.mem_singleton_self _
  have last := Compilation.chain_gives_last .script [LastStep.unit] 0 noErrors unit 100 .empty .empty
    LastStep.gives_three
  exact last.resolve_left fun none => by cases none.1

end ScriptLang
