import ScriptLang.Proofs.CompiledWrites
import ScriptLang.Proofs.LoweringSimulation
import ScriptLang.Proofs.Stretches

/-! The flat code of a `for` loop evaluates the lower bound, then the upper one, and comes to its body
once for each value between them, in order. The loop ends behind the body at the upper bound, so
the step never goes beyond it, also where the upper bound is the greatest integer. This holds of
every body that comes to its end in each pass and leaves the variable of the loop alone. -/

namespace ScriptLang

def interval (lo hi : Int64) : List Int64 :=
  (List.range (hi.toInt - lo.toInt + 1).toNat).map fun k : Nat => Int64.ofInt (lo.toInt + (k : Int))

/-- Below a bound the step does not wrap around. -/
theorem toInt_succ {i hi : Int64} (less : i < hi) : (i + 1).toInt = i.toInt + 1 := by
  have less := Int64.lt_iff_toInt_lt.1 less
  have bound := hi.toInt_lt
  have bound' := i.le_toInt
  rw [Int64.toInt_add]
  simp [Int.bmod_def]
  omega

theorem succ_le_of_lt {i hi : Int64} (less : i < hi) : i + 1 ≤ hi := by
  rw [Int64.le_iff_toInt_le, toInt_succ less]
  exact Int64.lt_iff_toInt_lt.1 less

theorem interval_of_lt {lo hi : Int64} (less : hi < lo) : interval lo hi = [] := by
  have less := Int64.lt_iff_toInt_lt.1 less
  have none : (hi.toInt - lo.toInt + 1).toNat = 0 := by omega
  rw [interval, none]
  rfl

theorem interval_self (i : Int64) : interval i i = [i] := by
  simp [interval, Int64.ofInt_toInt]

theorem interval_cons {i hi : Int64} (less : i < hi) : interval i hi = i :: interval (i + 1) hi := by
  have isLess := Int64.lt_iff_toInt_lt.1 less
  have count : (hi.toInt - i.toInt + 1).toNat = (hi.toInt - (i + 1).toInt + 1).toNat + 1 := by
    rw [toInt_succ less]
    omega
  rw [interval, count, List.range_succ_eq_map, List.map_cons, List.map_map, interval, toInt_succ less]
  congr 1
  · simp [Int64.ofInt_toInt]
  · refine List.map_congr_left fun k _ => ?_
    show Int64.ofInt (i.toInt + (k + 1 : Nat)) = _
    congr 1
    omega

def WritesOnly (P : Var → Prop) (code : List Stmt) : Prop := ∀ s ∈ code, ∀ v ∈ s.written, P v

namespace Stmt

theorem writes_jumps (P : Var → Prop) : OfJumps fun s => ∀ v ∈ s.written, P v :=
  ⟨fun _ => List.forall_mem_nil _, fun _ => List.forall_mem_nil _⟩

mutual

theorem emits_writes {P : Var → Prop} (s : Stmt) (low : Nat) (own : ∀ v ∈ s.vars, P v)
    (new : ∀ v : Var, low ≤ v.id → P v) : s.EmitsOnly (fun t => ∀ v ∈ t.written, P v) low := by
  have assigned {e : Expr} (vars : ∀ v ∈ e.vars, P v) : ∀ v ∈ e.assigned, P v :=
    fun v member => vars v (e.assigned_subset_vars member)
  cases s with
  | block body => exact allEmit_writes body low own new
  | ifThen c t =>
    obtain ⟨ownC, ownT⟩ := List.forall_mem_append.1 own
    exact ⟨fun _ _ => assigned ownC, emits_writes t low ownT new⟩
  | ifElse c t e =>
    obtain ⟨ownCT, ownE⟩ := List.forall_mem_append.1 own
    obtain ⟨ownC, ownT⟩ := List.forall_mem_append.1 ownCT
    exact ⟨fun _ _ => assigned ownC, emits_writes t low ownT new, emits_writes e low ownE new⟩
  | whileDo c body labels | doWhile body c labels =>
    obtain ⟨ownC, ownB⟩ := List.forall_mem_append.1 own
    exact ⟨fun _ _ => assigned ownC, emits_writes body low ownB new⟩
  | forIn v range body labels =>
    obtain ⟨isOwn, ownRB⟩ := List.forall_mem_cons.1 own
    obtain ⟨ownR, ownB⟩ := List.forall_mem_append.1 ownRB
    obtain ⟨ownLower, ownUpper⟩ := Expr.forall_mem_vars_bounds ownR
    refine ⟨fun n le => ?_, emits_writes body low ownB new⟩
    have hidden : P (upperBound v n) := new _ le
    exact {
      lowerBound := List.forall_mem_cons.2 ⟨isOwn, assigned ownLower⟩
      upperBound := List.forall_mem_cons.2 ⟨hidden, assigned ownUpper⟩
      enters := fun _ _ => List.forall_mem_nil _
      ends := fun _ _ => List.forall_mem_nil _
      step := List.forall_mem_singleton.2 isOwn }
  | gotoIf l c value => exact fun _ _ => assigned own
  | declare v e =>
    obtain ⟨isOwn, ownE⟩ := List.forall_mem_cons.1 own
    exact List.forall_mem_cons.2 ⟨isOwn, assigned ownE⟩
  | label _ | goto _ => trivial
  | ret value =>
    cases value with
    | none => exact List.forall_mem_nil _
    | some e => exact assigned own
  | expr e => exact assigned own

theorem allEmit_writes {P : Var → Prop} (ss : List Stmt) (low : Nat) (own : ∀ v ∈ varsOf ss, P v)
    (new : ∀ v : Var, low ≤ v.id → P v) :
    AllEmitOnly (fun t => ∀ v ∈ t.written, P v) low ss := by
  cases ss with
  | nil => trivial
  | cons s ss =>
    obtain ⟨ownS, ownSs⟩ := List.forall_mem_append.1 own
    exact ⟨emits_writes s low ownS new, allEmit_writes ss low ownSs new⟩

end

/-- The code of a statement writes variables that the statement mentions and new ones. -/
theorem lower_writesOnly {P : Var → Prop} (s : Stmt) (n : Nat) (own : ∀ v ∈ s.vars, P v)
    (new : ∀ v : Var, n ≤ v.id → P v) : WritesOnly P (s.lower n).1 :=
  forall_mem_lower (writes_jumps P) s n (Nat.le_refl n) (emits_writes s n own new)

end Stmt

theorem CodeAt.mem_of_get {body : Body} {place q : Nat} {code : List Stmt} {s : Stmt}
    (stands : CodeAt body place code) (get : body[q]? = some s)
    (within : place ≤ q ∧ q < place + code.length) : s ∈ code := by
  obtain ⟨before, after, rfl, rfl⟩ := stands
  rw [List.append_assoc, List.getElem?_append_right within.1,
    List.getElem?_append_left (by omega)] at get
  exact List.mem_of_getElem? get

section

variable {s : State} {v u : Var} {a b : Value} {i hi : Int64}

/-- Two variables of unknown value are compared by their values in the state. -/
theorem Expr.compare_apply {op : BinaryOp} (unknown : v.constant = none) (hidden : u.constant = none)
    (strict : Expr.decisive? op.action = none) (isA : s.read? v = some a) (isB : s.read? u = some b)
    (invoke : Invoke) :
    (Expr.binary (.var v) op (.var u)).eval invoke s = Run.ofExcept (op.action.apply a b) s := by
  have reads {w : Var} {x : Value} (isX : s.read? w = some x) : Run.read w s = .ok x s := by
    rw [Run.read_apply, isX]
  simp only [Expr.eval, Expr.constant?, Expr.foldBinary, BinaryAction.shortCircuit?, unknown, hidden,
    strict, Option.filter_none]
  exact (Run.bind_of_ok _ (reads isA)).trans (Run.bind_of_ok _ (reads isB))

theorem Expr.increment_apply (unknown : v.constant = none) (isInt : s.read? v = some (.int i))
    (invoke : Invoke) :
    (Expr.increment v).eval invoke s = .ok (.int (i + 1)) (s.write v (.int (i + 1))) := by
  have read : Run.read v s = .ok (.int i) s := by rw [Run.read_apply, isInt]
  have sum : (Expr.binary (.var v) .intAddition (.literal (.int 1))).eval invoke s =
      .ok (.int (i + 1)) s := by
    simp only [Expr.eval, Expr.constant?, Expr.foldBinary, BinaryAction.shortCircuit?, unknown]
    exact (Run.bind_of_ok _ read).trans rfl
  rw [Expr.increment, Expr.eval, Run.bind_of_ok _ sum]
  rfl

/-- Evaluation leaves as many frames as there were. -/
theorem Expr.eval_keepsDepth (p : Program) (limit : Option Nat) (fuel : Nat) (e : Expr) (size : Nat) :
    Maintains (fun s => s.frames.length = size) (e.eval (p.callee limit fuel)) :=
  Expr.eval_maintains (fun v _ x => Run.write_keepsDepth v x size)
    fun f _ args => p.callee_keepsDepth limit fuel f args size

/-- The step of a loop counts as an expression that stands alone. -/
theorem Run.step_apply (unknown : v.constant = none) (isInt : s.read? v = some (.int i))
    (invoke : Invoke) (body : Body) (isEntry : Bool) (place : Nat) :
    Run.stmt invoke body isEntry place (.expr (Expr.increment v)) s =
      .ok (.goto (place + 1)) { s.write v (.int (i + 1)) with
        last := if isEntry then some (.int (i + 1)) else s.last } := by
  have alone : (Expr.increment v).evalAlone invoke s =
      .ok (some (.int (i + 1))) (s.write v (.int (i + 1))) :=
    Run.bind_of_ok _ (Expr.increment_apply unknown isInt invoke)
  rw [Run.stmt, Run.bind_of_ok _ alone]
  cases isEntry with
  | true => rfl
  | false =>
    rw [← s.last_write v (.int (i + 1))]
    rfl

theorem Run.gotoIf_apply {invoke : Invoke} {body : Body} {place target : Nat} {l : Label} {c : Expr}
    {holds : Bool} (value : c.eval invoke s = .ok (.bool holds) s)
    (leads : body.labelPlace? l = some target) (isEntry : Bool) :
    Run.stmt invoke body isEntry place (.gotoIf l c true) s =
      .ok (.goto (if holds then target else place + 1)) s := by
  rw [Run.stmt, Run.bind_of_ok _ value]
  cases holds with
  | true => simp [Run.jump, leads]
  | false => rfl

end

/-- A `for` loop over a range, with the counter from which it is lowered. -/
structure ForLoop where
  var : Var
  lower : Expr
  upper : Expr
  inner : Stmt
  labels : LoopLabels
  counter : Nat

namespace ForLoop

section

variable (l : ForLoop)

def stmt : Stmt := .forIn l.var (.range l.lower l.upper) l.inner l.labels

def code : List Stmt := (l.stmt.lower l.counter).1

def innerCode : List Stmt := (l.inner.lower (l.counter + 3)).1

def hidden : Var := Stmt.upperBound l.var l.counter

/-- Where each pass begins if the code of the loop stands at `start`: the label of the body. -/
def entry (start : Nat) : Nat := start + 3

def bodyEnd (start : Nat) : Nat := start + 4 + l.innerCode.length

def step (start : Nat) : Nat := l.bodyEnd start + 2

def exit (start : Nat) : Nat := l.bodyEnd start + 6

theorem places (start : Nat) : entry start = start + 3 ∧ start + 4 ≤ l.bodyEnd start ∧
    l.step start = l.bodyEnd start + 2 ∧ l.exit start = l.bodyEnd start + 6 :=
  ⟨rfl, Nat.le_add_right _ _, rfl, rfl⟩

/-- The code of the loop stands in a body of the program, and the numbers of the hidden variable
and of labels are new there. The upper bound and the body of the loop leave its variable alone,
and so do the functions that are called if it is global. -/
structure StandsAt (p : Program) (body : Body) (start : Nat) : Prop where
  stands : CodeAt body start l.code
  nodup : (definitions body).Nodup
  unknown : l.var.constant = none
  fresh : ∀ w ∈ l.stmt.vars, w.id < l.counter
  upper : ∀ w ∈ l.upper.assigned, w.id ≠ l.var.id
  inner : Body.Spares l.var l.innerCode
  calls : l.var.isGlobal = true → ∀ f ∈ l.stmt.calls, p.CallSpares l.var f ∧ p.CallSpares l.hidden f

/-- Whenever the loop comes from the state `s` at its start to the label of its body, the body runs
to its end. The label to which `continue` leads stands there. -/
def Completes (p : Program) (limit : Option Nat) (body : Body) (start : Nat) (s : State) : Prop :=
  ∀ visits t, Stretch p limit body start s visits (entry start) t →
    (∀ visit ∈ visits, start ≤ visit.place ∧ visit.place < l.exit start) →
    ∃ visits' u, Stretch p limit body (start + 4) t visits' (l.bodyEnd start) u ∧
      ∀ visit ∈ visits', start + 4 ≤ visit.place ∧ visit.place < l.bodyEnd start

structure Holds (callers : Nat) (i hi : Int64) (s : State) : Prop where
  depth : s.frames.length = callers + 1
  var : s.read? l.var = some (.int i)
  hidden : s.read? l.hidden = some (.int hi)

/-- A visit inside the loop at which its variable is no greater than the upper bound, and less
where it goes up. -/
structure Proper (start : Nat) (hi : Int64) (visit : Visit) : Prop where
  inside : start + 2 ≤ visit.place ∧ visit.place < l.exit start
  value : ∃ i, visit.state.read? l.var = some (.int i) ∧ i ≤ hi ∧ (visit.place = l.step start → i < hi)

end

section

variable {l : ForLoop} {p : Program} {limit : Option Nat} {body : Body} {start : Nat} {s t : State}
  {callers : Nat} {i hi : Int64} {visits : List Visit}

theorem Holds.proper (holds : l.Holds callers i hi s) (atMost : i ≤ hi) {place : Nat}
    (inside : start + 2 ≤ place ∧ place < l.exit start) (below : place = l.step start → i < hi) :
    l.Proper start hi ⟨place, s⟩ :=
  ⟨inside, i, holds.var, atMost, below⟩

/-- What stands in front of the body of the loop and behind it. -/
theorem code_eq (unknown : l.var.constant = none) :
    l.code = .declare l.var l.lower :: .declare l.hidden l.upper ::
      .goto ⟨l.counter + 1, "continue"⟩ :: .label ⟨l.counter + 2, "body"⟩ :: (l.innerCode ++
        [.label l.labels.onContinue,
          .gotoIf l.labels.onBreak (.binary (.var l.var) .intEquals (.var l.hidden)) true,
          .expr (Expr.increment l.var),
          .label ⟨l.counter + 1, "continue"⟩,
          .gotoIf ⟨l.counter + 2, "body"⟩
            (.binary (.var l.var) .intLessOrEquals (.var l.hidden)) true,
          .label l.labels.onBreak]) := by
  unfold code stmt
  rw [Stmt.lower_forIn, stepCode_of_unknown _ unknown rfl, loopCode, jumpIf_compare unknown rfl rfl]
  simp [innerCode, hidden, Expr.bounds]

namespace StandsAt

variable (standsAt : l.StandsAt p body start)

include standsAt

theorem entering : CodeAt body start [.declare l.var l.lower, .declare l.hidden l.upper,
    .goto ⟨l.counter + 1, "continue"⟩, .label ⟨l.counter + 2, "body"⟩] := by
  have stands := standsAt.stands
  rw [code_eq standsAt.unknown] at stands
  exact stands.left (a := [_, _, _, _])

theorem inside : CodeAt body (start + 4) l.innerCode := by
  have stands := standsAt.stands
  rw [code_eq standsAt.unknown] at stands
  exact stands.tail.tail.tail.tail.left

theorem behind : CodeAt body (l.bodyEnd start) [.label l.labels.onContinue,
    .gotoIf l.labels.onBreak (.binary (.var l.var) .intEquals (.var l.hidden)) true,
    .expr (Expr.increment l.var),
    .label ⟨l.counter + 1, "continue"⟩,
    .gotoIf ⟨l.counter + 2, "body"⟩ (.binary (.var l.var) .intLessOrEquals (.var l.hidden)) true,
    .label l.labels.onBreak] := by
  have stands := standsAt.stands
  rw [code_eq standsAt.unknown] at stands
  exact stands.tail.tail.tail.tail.right

theorem hidden_ne : l.var.id ≠ l.hidden.id :=
  Nat.ne_of_lt (standsAt.fresh l.var List.mem_cons_self)

/-- The body of the loop leaves the hidden variable alone, which is new. -/
theorem innerSpares : Body.Spares l.hidden l.innerCode := by
  refine Stmt.lower_writesOnly l.inner (l.counter + 3) (fun w member => ?_) fun w above => ?_
  · exact Nat.ne_of_lt (standsAt.fresh w (List.mem_append_right (l.var :: _) member))
  · exact Nat.ne_of_gt (Nat.lt_of_lt_of_le (Nat.lt_add_of_pos_right (by decide)) above)

/-- From the state at the label of the body, the variable of the loop and the hidden one keep their
values to the end of the body. -/
theorem body_holds (stretch : Stretch p limit body (start + 4) s visits (l.bodyEnd start) t)
    (within : ∀ visit ∈ visits, start + 4 ≤ visit.place ∧ visit.place < l.bodyEnd start)
    (holds : l.Holds callers i hi s) :
    (∀ visit ∈ visits, l.Holds callers i hi visit.state) ∧ l.Holds callers i hi t := by
  have keeps (w : Var) (value : Option Value) (spares : Body.Spares w l.innerCode)
      (same : w.isGlobal = l.var.isGlobal)
      (calls : l.var.isGlobal = true → ∀ f ∈ l.stmt.calls, p.CallSpares w f)
      (isValue : s.read? w = value) :
      (∀ visit ∈ visits, State.Shows w callers value (callers + 1) visit.state) ∧
        State.Shows w callers value (callers + 1) t := by
    refine stretch.maintains (fun visit member stmt get m isEntry => ?_) ⟨holds.depth, ?_⟩
    · have inner := standsAt.inside.mem_of_get get (within visit member)
      refine Run.stmt_shows body isEntry visit.place (spares stmt inner) fun isGlobal f called => ?_
      have only := Stmt.lower_callsOnly (P := fun f => p.CallSpares w f) l.inner (l.counter + 3)
        fun f called => calls (same ▸ isGlobal) f (List.mem_append_right _ called)
      exact (only stmt inner f called).keepsGlobal limit m
    · rw [← isValue, ← s.valueIn_innermost w (by simp [holds.depth]), holds.depth]
      rfl
  have reads {w : Var} {value : Option Value} {u : State}
      (shows : State.Shows w callers value (callers + 1) u) : u.read? w = value := by
    rw [← shows.value, ← u.valueIn_innermost w (by simp [shows.size]), shows.size]
    rfl
  obtain ⟨vars, var⟩ := keeps l.var _ standsAt.inner rfl
    (fun isGlobal f called => (standsAt.calls isGlobal f called).1) holds.var
  obtain ⟨hiddens, hidden⟩ := keeps l.hidden _ standsAt.innerSpares
    (Stmt.isGlobal_upperBound l.var l.counter)
    (fun isGlobal f called => (standsAt.calls isGlobal f called).2) holds.hidden
  exact ⟨fun visit member => ⟨(vars visit member).size, reads (vars visit member),
    reads (hiddens visit member)⟩, var.size, reads var, reads hidden⟩

/-- A pass goes from the label of the body to the test of the upper bound, which ends the loop or
leads to the step. -/
theorem pass_leads (stretch : Stretch p limit body (start + 4) s visits (l.bodyEnd start) t)
    (within : ∀ visit ∈ visits, start + 4 ≤ visit.place ∧ visit.place < l.bodyEnd start)
    (atMost : i ≤ hi) (holds : l.Holds callers i hi s) :
    ∃ visits', Stretch p limit body (entry start) s visits'
        (if i = hi then l.bodyEnd start + 5 else l.step start) t ∧
      (∀ visit ∈ visits', l.Proper start hi visit) ∧
      valuesAt l.var (entry start) visits' = [some (.int i)] ∧ l.Holds callers i hi t := by
  obtain ⟨isEntry, entered, isStep, isExit⟩ := l.places start
  obtain ⟨hold, holds'⟩ := standsAt.body_holds stretch within holds
  have onBreak : body.labelPlace? l.labels.onBreak = some (l.bodyEnd start + 5) :=
    standsAt.behind.tail.tail.tail.tail.tail.labelPlace? standsAt.nodup rfl
  have equal (invoke : Invoke) :
      (Expr.binary (.var l.var) .intEquals (.var l.hidden)).eval invoke t = .ok (.bool (i == hi)) t :=
    Expr.compare_apply standsAt.unknown rfl rfl holds'.var holds'.hidden invoke
  have test : Stretch p limit body (l.bodyEnd start + 1) t [⟨l.bodyEnd start + 1, t⟩]
      (if i = hi then l.bodyEnd start + 5 else l.step start) t := by
    refine .one standsAt.behind.tail.get fun m => ?_
    rw [Run.gotoIf_apply (equal _) onBreak]
    simp [step]
  refine ⟨[⟨entry start, s⟩] ++ (visits ++ ([⟨l.bodyEnd start, t⟩] ++ [⟨l.bodyEnd start + 1, t⟩])),
    ?_, ?_, ?_, holds'⟩
  · have label : Stretch p limit body (entry start) s [⟨entry start, s⟩] (start + 4) s :=
      .one standsAt.entering.tail.tail.tail.get fun _ => rfl
    have continues : Stretch p limit body (l.bodyEnd start) t [⟨l.bodyEnd start, t⟩]
        (l.bodyEnd start + 1) t := .one standsAt.behind.get fun _ => rfl
    exact label.append (stretch.append (continues.append test))
  · have proper {place : Nat} {u : State} (holds : l.Holds callers i hi u)
        (inside : start + 2 ≤ place ∧ place < l.step start) : l.Proper start hi ⟨place, u⟩ :=
      holds.proper atMost (by omega) (by omega)
    simp only [List.forall_mem_append, List.forall_mem_singleton]
    refine ⟨proper holds (by omega), fun visit member => proper (hold visit member) ?_,
      proper holds' (by omega), proper holds' (by omega)⟩
    have inside := within visit member
    omega
  · have apart : ∀ visit ∈ visits ++ ([⟨l.bodyEnd start, t⟩] ++ [⟨l.bodyEnd start + 1, t⟩]),
        visit.place ≠ entry start := by
      simp only [List.forall_mem_append, List.forall_mem_singleton]
      refine ⟨fun visit member => ?_, by omega, by omega⟩
      have inside := within visit member
      omega
    rw [List.singleton_append, valuesAt_cons, if_pos rfl, valuesAt_of_apart apart, holds.var]

/-- The condition of the loop leads to the next pass up to the upper bound. -/
theorem test_leads (limit : Option Nat) (holds : l.Holds callers i hi s) :
    Stretch p limit body (l.bodyEnd start + 3) s
      ([⟨l.bodyEnd start + 3, s⟩] ++ [⟨l.bodyEnd start + 4, s⟩])
      (if i ≤ hi then entry start else l.bodyEnd start + 5) s := by
  have label : Stretch p limit body (l.bodyEnd start + 3) s [⟨l.bodyEnd start + 3, s⟩]
      (l.bodyEnd start + 4) s := .one standsAt.behind.tail.tail.tail.get fun _ => rfl
  have onEntry : body.labelPlace? ⟨l.counter + 2, "body"⟩ = some (entry start) :=
    standsAt.entering.tail.tail.tail.labelPlace? standsAt.nodup rfl
  refine label.append (.one standsAt.behind.tail.tail.tail.tail.get fun m => ?_)
  have value : (Expr.binary (.var l.var) .intLessOrEquals (.var l.hidden)).eval (p.callee limit m) s =
      .ok (.bool (i ≤ hi)) s :=
    Expr.compare_apply standsAt.unknown rfl rfl holds.var holds.hidden (p.callee limit m)
  rw [Run.gotoIf_apply value onEntry]
  simp

/-- Behind the last pass there is one more label. -/
theorem leave (s : State) :
    Stretch p limit body (l.bodyEnd start + 5) s [⟨l.bodyEnd start + 5, s⟩] (l.exit start) s :=
  .one standsAt.behind.tail.tail.tail.tail.tail.get fun _ => rfl

/-- Below the upper bound the variable goes up by one, and the condition of the loop leads to the
next pass. -/
theorem step_leads (limit : Option Nat) (less : i < hi) (holds : l.Holds callers i hi s) :
    ∃ visits t, Stretch p limit body (l.step start) s visits (entry start) t ∧
      (∀ visit ∈ visits, l.Proper start hi visit) ∧ valuesAt l.var (entry start) visits = [] ∧
      l.Holds callers (i + 1) hi t := by
  obtain ⟨isEntry, entered, isStep, isExit⟩ := l.places start
  have atMost := succ_le_of_lt less
  obtain ⟨frame, below, frames⟩ := List.exists_cons_of_length_eq_add_one holds.depth
  let t : State := { s.write l.var (.int (i + 1)) with
    last := if s.inEntry then some (.int (i + 1)) else s.last }
  have holds' : l.Holds callers (i + 1) hi t :=
    ⟨(s.length_write _ _).trans holds.depth, State.read?_write_self frames,
      (State.read?_write_of_apart fun _ => standsAt.hidden_ne.symm).trans holds.hidden⟩
  have up : Stretch p limit body (l.step start) s [⟨l.step start, s⟩] (l.bodyEnd start + 3) t := by
    refine .one standsAt.behind.tail.tail.get fun m => ?_
    exact Run.step_apply standsAt.unknown holds.var (p.callee limit m) body s.inEntry (l.step start)
  have test := standsAt.test_leads limit holds'
  rw [if_pos atMost] at test
  refine ⟨_, t, up.append test, ?_, valuesAt_of_apart ?_, holds'⟩
  · simp only [List.forall_mem_append, List.forall_mem_singleton]
    exact ⟨holds.proper (Int64.le_of_lt less) (by omega) fun _ => less,
      holds'.proper atMost (by omega) (by omega), holds'.proper atMost (by omega) (by omega)⟩
  · simp only [List.forall_mem_append, List.forall_mem_singleton]
    exact ⟨by omega, by omega, by omega⟩

/-- From the label of the body on, the loop makes a pass for each value up to the upper bound, by
induction on how far the variable is below it. -/
theorem passes_lead {s₀ : State} (completes : l.Completes p limit body start s₀) (n : Nat)
    {before : List Visit} (count : (hi.toInt - i.toInt).toNat = n) (atMost : i ≤ hi)
    (holds : l.Holds callers i hi s)
    (reached : Stretch p limit body start s₀ before (entry start) s)
    (inside : ∀ visit ∈ before, start ≤ visit.place ∧ visit.place < l.exit start) :
    ∃ visits t, Stretch p limit body (entry start) s visits (l.exit start) t ∧
      (∀ visit ∈ visits, l.Proper start hi visit) ∧
      valuesAt l.var (entry start) visits = (interval i hi).map (fun i => some (.int i)) ∧
      l.Holds callers hi hi t := by
  obtain ⟨isEntry, entered, isStep, isExit⟩ := l.places start
  have within {visits : List Visit} (proper : ∀ visit ∈ visits, l.Proper start hi visit) :
      ∀ visit ∈ visits, start ≤ visit.place ∧ visit.place < l.exit start := fun visit member =>
    ⟨by have above := (proper visit member).inside.1; omega, (proper visit member).inside.2⟩
  induction n generalizing i s before with
  | zero =>
    have same : i = hi := Int64.toInt_inj.1 (by
      have le := Int64.le_iff_toInt_le.1 atMost
      omega)
    subst same
    obtain ⟨inner, t, stretch, between⟩ := completes before s reached inside
    obtain ⟨pass, leads, proper, value, holds'⟩ := standsAt.pass_leads stretch between atMost holds
    rw [if_pos rfl] at leads
    refine ⟨pass ++ [⟨l.bodyEnd start + 5, t⟩], t, leads.append (standsAt.leave t), ?_, ?_, holds'⟩
    · refine List.forall_mem_append.2 ⟨proper, List.forall_mem_singleton.2 ?_⟩
      exact holds'.proper atMost (by omega) (by omega)
    · have behind : l.bodyEnd start + 5 ≠ entry start := by omega
      rw [valuesAt_append, value, valuesAt_of_apart (List.forall_mem_singleton.2 behind), interval_self]
      rfl
  | succ n ih =>
    have different : i ≠ hi := by
      rintro rfl
      omega
    have less : i < hi := Int64.lt_of_le_of_ne atMost different
    have next : (hi.toInt - (i + 1).toInt).toNat = n := by
      rw [toInt_succ less]
      omega
    obtain ⟨inner, t, stretch, between⟩ := completes before s reached inside
    obtain ⟨pass, leads, proper, value, holds'⟩ := standsAt.pass_leads stretch between atMost holds
    rw [if_neg different] at leads
    obtain ⟨up, u, goesUp, proper', none, above⟩ := standsAt.step_leads limit less holds'
    obtain ⟨rest, v, ends, proper'', values, atEnd⟩ := ih next (succ_le_of_lt less) above
      (reached.append (leads.append goesUp))
      (List.forall_mem_append.2 ⟨inside, List.forall_mem_append.2 ⟨within proper, within proper'⟩⟩)
    refine ⟨pass ++ (up ++ rest), v, leads.append (goesUp.append ends), ?_, ?_, atEnd⟩
    · exact List.forall_mem_append.2 ⟨proper, List.forall_mem_append.2 ⟨proper', proper''⟩⟩
    · rw [valuesAt_append, valuesAt_append, value, none, values, interval_cons less]
      rfl

/-- The bounds are evaluated one after the other and stored. -/
theorem enter {s₁ s₂ : State} {lo : Int64} (depth : s.frames.length = callers + 1)
    (lower : Settles (fun m => l.lower.eval (p.callee limit m)) s (.ok (.int lo) s₁))
    (upper : Settles (fun m => l.upper.eval (p.callee limit m)) (s₁.write l.var (.int lo))
      (.ok (.int hi) s₂)) :
    ∃ t, Stretch p limit body start s [⟨start, s⟩, ⟨start + 1, s₁.write l.var (.int lo)⟩]
      (start + 2) t ∧ l.Holds callers lo hi t := by
  let u := s₁.write l.var (.int lo)
  have depth₁ : s₁.frames.length = callers + 1 := by
    obtain ⟨n, enough⟩ := lower.enough
    exact (Expr.eval_keepsDepth p limit n l.lower _).of_ok depth (enough n (Nat.le_refl n))
  have depthU : u.frames.length = callers + 1 := (s₁.length_write _ _).trans depth₁
  obtain ⟨frame, below, frames⟩ := List.exists_cons_of_length_eq_add_one depth₁
  have shows : State.Shows l.var callers (some (.int lo)) (callers + 1) u := by
    refine ⟨depthU, ?_⟩
    rw [← State.read?_write_self frames, ← u.valueIn_innermost l.var (by simp [depthU]), depthU]
    rfl
  have keeps (m : Nat) : Maintains (State.Shows l.var callers (some (.int lo)) (callers + 1))
      (l.upper.eval (p.callee limit m)) := by
    refine Expr.eval_maintains (fun w member x => Run.write_shows (.inl (standsAt.upper w member)) x)
      fun f called args => Program.callee_shows fun isGlobal x => ?_
    have isCall : f ∈ l.stmt.calls := List.mem_append_left _ (List.mem_append_right l.lower.calls called)
    exact (standsAt.calls isGlobal f isCall).1.keepsGlobal limit m args x
  obtain ⟨n, enough⟩ := upper.enough
  have shows₂ := (keeps n).of_ok shows (enough n (Nat.le_refl n))
  obtain ⟨frame₂, below₂, frames₂⟩ := List.exists_cons_of_length_eq_add_one shows₂.size
  refine ⟨s₂.write l.hidden (.int hi), .cons standsAt.entering.get (lower.bind (.of_const rfl))
    (.cons standsAt.entering.tail.get (upper.bind (.of_const rfl)) (.nil _ _)), ?_, ?_, ?_⟩
  · exact (s₂.length_write _ _).trans shows₂.size
  · rw [State.read?_write_of_apart fun _ => standsAt.hidden_ne, ← shows₂.value,
      ← s₂.valueIn_innermost l.var (by simp [shows₂.size]), shows₂.size]
    rfl
  · exact State.read?_write_self frames₂

end StandsAt

/-- A `for` loop visits its interval: from a state of a run, in which the bounds have the values
`lo` and `hi`, the run comes to its end. It evaluates the lower bound once, then the upper bound
once, and begins a pass for each integer from `lo` to `hi`, in order. Where the variable goes up it is
less than `hi`, so that it does not wrap around, and if `lo` is at most `hi`, it is never greater. -/
theorem visits_interval {lo : Int64} {s₁ s₂ : State} (standsAt : l.StandsAt p body start)
    (active : 0 < s.frames.length)
    (lower : Settles (fun m => l.lower.eval (p.callee limit m)) s (.ok (.int lo) s₁))
    (upper : Settles (fun m => l.upper.eval (p.callee limit m)) (s₁.write l.var (.int lo))
      (.ok (.int hi) s₂))
    (completes : l.Completes p limit body start s) :
    ∃ visits t,
      Stretch p limit body start s
        (⟨start, s⟩ :: ⟨start + 1, s₁.write l.var (.int lo)⟩ :: visits) (l.exit start) t ∧
      Leads p limit body (.goto start) s (visits.length + 2) (.goto (l.exit start)) t ∧
      (∀ visit ∈ visits, start + 2 ≤ visit.place ∧ visit.place < l.exit start) ∧
      valuesAt l.var (entry start) visits = (interval lo hi).map (fun i => some (.int i)) ∧
      (∀ visit ∈ visits, visit.place = l.step start → ∃ i, visit.state.read? l.var = some (.int i) ∧
        i < hi ∧ (i + 1).toInt = i.toInt + 1) ∧
      (lo ≤ hi → t.read? l.var = some (.int hi) ∧
        ∀ visit ∈ visits, ∃ i, visit.state.read? l.var = some (.int i) ∧ i ≤ hi) := by
  obtain ⟨isEntry, entered, isStep, isExit⟩ := l.places start
  have depth : s.frames.length = s.frames.length - 1 + 1 := by omega
  obtain ⟨t, enter, holds⟩ := standsAt.enter depth lower upper
  have goto : Stretch p limit body (start + 2) t [⟨start + 2, t⟩] (l.bodyEnd start + 3) t := by
    refine .one standsAt.entering.tail.tail.get fun m => ?_
    have onTest : body.labelPlace? ⟨l.counter + 1, "continue"⟩ = some (l.bodyEnd start + 3) :=
      standsAt.behind.tail.tail.tail.labelPlace? standsAt.nodup rfl
    simp [Run.stmt, Run.jump, onTest]
  have test := goto.append (standsAt.test_leads limit holds)
  let tests : List Visit :=
    [⟨start + 2, t⟩] ++ ([⟨l.bodyEnd start + 3, t⟩] ++ [⟨l.bodyEnd start + 4, t⟩])
  have apart : ∀ visit ∈ tests, visit.place ≠ entry start := by
    simp only [tests, List.forall_mem_append, List.forall_mem_singleton]
    omega
  by_cases atMost : lo ≤ hi
  · rw [if_pos atMost] at test
    have first : ∀ visit ∈ tests, l.Proper start hi visit := by
      simp only [tests, List.forall_mem_append, List.forall_mem_singleton]
      exact ⟨holds.proper atMost (by omega) (by omega), holds.proper atMost (by omega) (by omega),
        holds.proper atMost (by omega) (by omega)⟩
    have inside : ∀ visit ∈ ⟨start, s⟩ :: ⟨start + 1, s₁.write l.var (.int lo)⟩ :: tests,
        start ≤ visit.place ∧ visit.place < l.exit start := by
      simp only [List.forall_mem_cons]
      refine ⟨by omega, by omega, fun visit member => ?_⟩
      have within := (first visit member).inside
      omega
    obtain ⟨rest, u, passes, proper, values, atEnd⟩ := standsAt.passes_lead completes _ rfl atMost
      holds (enter.append test) inside
    have proper := List.forall_mem_append.2 ⟨first, proper⟩
    have whole := (enter.append test).append passes
    refine ⟨tests ++ rest, u, whole, whole.leads, fun visit member => (proper visit member).inside, ?_,
      fun visit member atStep => ?_, fun _ => ⟨atEnd.var, fun visit member => ?_⟩⟩
    · rw [valuesAt_append, values, valuesAt_of_apart apart]
      rfl
    · obtain ⟨i, isInt, _, less⟩ := (proper visit member).value
      exact ⟨i, isInt, less atStep, toInt_succ (less atStep)⟩
    · obtain ⟨i, isInt, le, _⟩ := (proper visit member).value
      exact ⟨i, isInt, le⟩
  · rw [if_neg atMost] at test
    have whole := (enter.append test).append (standsAt.leave t)
    let last : Visit := ⟨l.bodyEnd start + 5, t⟩
    refine ⟨tests ++ [last], t, whole, whole.leads, ?_, ?_, ?_, fun le => absurd le atMost⟩
    · simp only [tests, last, List.forall_mem_append, List.forall_mem_singleton]
      omega
    · have behind : l.bodyEnd start + 5 ≠ entry start := by omega
      rw [interval_of_lt (Int64.not_le.1 atMost), valuesAt_append, valuesAt_of_apart apart,
        valuesAt_of_apart (List.forall_mem_singleton.2 behind)]
      rfl
    · have noStep : ∀ visit ∈ tests ++ [last], visit.place ≠ l.step start := by
        simp only [tests, last, List.forall_mem_append, List.forall_mem_singleton]
        omega
      exact fun visit member atStep => absurd atStep (noStep visit member)

end

end ForLoop

namespace LastIntegers

def counter : Var := ⟨0, "i", .int, .globalVar, .readOnly none⟩
def text : Var := ⟨1, "text", .string, .parameter 0, .readOnly none⟩
def print : Fn := ⟨2, "print", [text], .void, none, some .print⟩
def main : Fn := ⟨3, "main", [], .void, none, none⟩
def labels : LoopLabels := ⟨⟨4, "break"⟩, ⟨5, "continue"⟩⟩

/-- `for i in 9223372036854775805..9223372036854775807 { print("pass") continue }` -/
def loop : ForLoop where
  var := counter
  lower := .literal (.int 9223372036854775805)
  upper := .literal (.int 9223372036854775807)
  inner := .block [.expr (.call print [.literal (.string "pass")]), .goto labels.onContinue]
  labels := labels
  counter := 6

def program : Program := ⟨.empty, some main, [(main, loop.code)], []⟩

def start : State := ⟨.empty, [.empty], .empty, none⟩

theorem print_spares (v : Var) : program.CallSpares v print := by
  have builtin : program.body? print = none := rfl
  intro g body path found
  rcases Relation.ReflTransGen.cases_head path with rfl | ⟨h, ⟨code, isBody, _⟩, _⟩
  · rw [builtin] at found
    contradiction
  · rw [builtin] at isBody
    contradiction

theorem standsAt : loop.StandsAt program loop.code 0 where
  stands := ⟨[], [], by simp, rfl⟩
  nodup := by decide
  unknown := rfl
  fresh := by decide
  upper := List.forall_mem_nil _
  inner := by
    unfold Body.Spares
    decide
  calls := fun _ => List.forall_mem_singleton.2 ⟨print_spares _, print_spares _⟩

/-- Wherever the body starts, it prints and goes on to the end of the pass. -/
theorem completes : loop.Completes program none loop.code 0 start := by
  intro visits t _ _
  let u : State := { t with
    host := { t.host with printed := "pass" :: t.host.printed }
    last := if t.inEntry then none else t.last }
  have prints : Stretch program none loop.code 4 t [⟨4, t⟩] 5 u := by
    refine .one rfl fun m => ?_
    cases entry : t.inEntry with
    | true => simp only [u, entry]; rfl
    | false => simp only [u, entry]; rfl
  have goes : Stretch program none loop.code 5 u [⟨5, u⟩] (loop.bodyEnd 0) u := .one rfl fun _ => rfl
  refine ⟨[⟨4, t⟩] ++ [⟨5, u⟩], u, prints.append goes, ?_⟩
  simp only [List.forall_mem_append, List.forall_mem_singleton]
  decide

end LastIntegers

theorem lastIntegers_visited :
    LastIntegers.loop.StandsAt LastIntegers.program LastIntegers.loop.code 0 ∧
    LastIntegers.loop.Completes LastIntegers.program none LastIntegers.loop.code 0
      LastIntegers.start ∧
    ∃ visits t,
      Leads LastIntegers.program none LastIntegers.loop.code (.goto 0) LastIntegers.start
        (visits.length + 2) (.goto 12) t ∧
      valuesAt LastIntegers.counter 3 visits = [some (.int 9223372036854775805),
        some (.int 9223372036854775806), some (.int 9223372036854775807)] ∧
      t.read? LastIntegers.counter = some (.int 9223372036854775807) := by
  obtain ⟨visits, t, _, leads, _, values, _, entered⟩ := ForLoop.visits_interval
    LastIntegers.standsAt (s := LastIntegers.start) (by decide) (.of_const rfl)
    (.of_const rfl) LastIntegers.completes
  exact ⟨LastIntegers.standsAt, LastIntegers.completes, visits, t, leads, values.trans (by decide),
    (entered (by decide)).1⟩

end ScriptLang
