import ScriptLang.Proofs.AlikeEval
import ScriptLang.Proofs.FlatRun
import ScriptLang.Proofs.LoweringLabels
import ScriptLang.Proofs.Structured

/-! A statement is run beside its flat code, which stands somewhere in a body. Where the
statement ends, the flat run is behind the code, at the label of a loop around it, or at
a return. The upper bound of a `for` loop is a value on one side and a held variable on
the other. -/

namespace ScriptLang

/-- One activation of structured statements beside one of the flat code of `body`, where
calls have one unit of fuel less. -/
structure Paired (p : Program) (limit : Option Nat) (body : Body) (callable : Fn → Prop)
    (c : SideBySide) (a : Activation) (n : Nat) : Prop where
  calls : CallsFollow callable c.next c.comparesLast n a.invoke (p.callee limit)
  entry : a.isEntry = c.secondCallers.isEmpty
  steps : a.stepCounts = c.comparesLast
  fuel : a.fuel = n + 1
  nodup : (definitions body).Nodup

abbrev MatchesAlike {α : Type} (p : Program) (limit : Option Nat) (body : Body) (c : SideBySide)
    (held : Held) (n : Nat) (start : Next) (x : Run α) (ends : α → Next → Prop) : Prop :=
  Matches p limit body (Alike c held) (fun _ => Alike c held) (AlikeOutside c) n start x ends

/-- Where the flat run is when a statement has ended whose code stands before `stop`. -/
def EndsAt (body : Body) (enclosing : List LoopLabels) (stop : Nat) : Ending → Next → Prop
  | .next, target => target = .goto stop
  | .jump l, target =>
    l.Targets enclosing ∧ ∃ place, body.labelPlace? l = some place ∧ target = .goto place
  | .ret value, target => target = .ret value

/-- Where the flat run is after a pass of a loop whose `continue` label stands at `head` and
whose `break` label stands at `exit`. -/
def PassEnds (body : Body) (enclosing : List LoopLabels) (head exit : Nat) :
    Option Ending → Next → Prop
  | none, target => target = .goto head
  | some ending, target => EndsAt body enclosing exit ending target

def LabelsFound (body : Body) (enclosing : List LoopLabels) : Prop :=
  ∀ l : Label, l.Targets enclosing → ∃ place, body.labelPlace? l = some place

def Performs (p : Program) (limit : Option Nat) (body : Body) (c : SideBySide) (held : Held)
    (n : Nat) (enclosing : List LoopLabels) (code : List Stmt) (x : Run Ending) : Prop :=
  ∀ place, CodeAt body place code → MatchesAlike p limit body c held (n + 1) (.goto place) x
    (EndsAt body enclosing (place + code.length))

theorem labelPlaceFrom?_congr {l k : Label} (same : l.id = k.id) (place : Nat)
    (code : List Stmt) : labelPlaceFrom? l place code = labelPlaceFrom? k place code := by
  have defines (s : Stmt) : s.defines l = s.defines k := by cases s <;> simp [Stmt.defines, same]
  induction code generalizing place with
  | nil => rfl
  | cons s code ih => simp only [labelPlaceFrom?, ih (place + 1), defines s]

theorem Body.labelPlace?_congr {l k : Label} (same : l.id = k.id) (body : Body) :
    body.labelPlace? l = body.labelPlace? k := labelPlaceFrom?_congr same 0 body

theorem LabelsFound.cons {body : Body} {enclosing : List LoopLabels} {labels : LoopLabels}
    {head exit : Nat} (found : LabelsFound body enclosing)
    (onContinue : body.labelPlace? labels.onContinue = some head)
    (onBreak : body.labelPlace? labels.onBreak = some exit) :
    LabelsFound body (labels :: enclosing) := by
  rintro l ⟨k, member, same⟩
  rcases List.mem_cons.1 member with rfl | member
  · rcases same with isBreak | isContinue
    · exact ⟨exit, (body.labelPlace?_congr isBreak).trans onBreak⟩
    · exact ⟨head, (body.labelPlace?_congr isContinue).trans onContinue⟩
  · exact found l ⟨k, member, same⟩

theorem after?_ends {body : Body} {enclosing : List LoopLabels} {labels : LoopLabels}
    {head exit : Nat} {ending : Ending} {target : Next}
    (ends : EndsAt body (labels :: enclosing) head ending target)
    (onContinue : body.labelPlace? labels.onContinue = some head)
    (onBreak : body.labelPlace? labels.onBreak = some exit) :
    PassEnds body enclosing head exit (labels.after? ending) target := by
  cases ending with
  | next => exact ends
  | ret value => exact ends
  | jump l =>
    obtain ⟨targets, place, found, rfl⟩ := ends
    simp only [LoopLabels.after?]
    by_cases isContinue : l.id = labels.onContinue.id
    · rw [if_pos isContinue]
      rw [body.labelPlace?_congr isContinue, onContinue] at found
      rw [← Option.some.inj found]
      rfl
    · rw [if_neg isContinue]
      by_cases isBreak : l.id = labels.onBreak.id
      · rw [if_pos isBreak]
        rw [body.labelPlace?_congr isBreak, onBreak] at found
        rw [← Option.some.inj found]
        rfl
      · rw [if_neg isBreak]
        obtain ⟨k, member, same⟩ := targets
        rcases List.mem_cons.1 member with rfl | member
        · exact absurd same (by simp [isContinue, isBreak])
        · exact ⟨⟨k, member, same⟩, place, found, rfl⟩

section

variable {p : Program} {limit : Option Nat} {body : Body} {callable : Fn → Prop}
  {c : SideBySide} {a : Activation} {n : Nat} {held : Held} {α : Type}

theorem Alike.inEntry_eq {s t : State} (alike : Alike c held s t) :
    t.inEntry = c.secondCallers.isEmpty := by
  obtain ⟨f, g, _, ht, _⟩ := alike.frames
  unfold State.inEntry
  rw [ht]
  cases c.secondCallers <;> rfl

/-- A loop whose head is a label, which is passed in every pass. -/
theorem MatchesAlike.loop {pass : Run (Option Ending)} {enclosing : List LoopLabels} {l : Label}
    {code : List Stmt} {head exit : Nat} (stands : CodeAt body head (.label l :: code))
    (passes : MatchesAlike p limit body c held n (.goto (head + 1)) pass
      (PassEnds body enclosing head exit)) (j : Nat) (bound : j ≤ n) :
    MatchesAlike p limit body c held j (.goto head) (Run.loop pass j)
      (EndsAt body enclosing exit) := by
  induction j with
  | zero =>
    intro s t _ m none
    obtain rfl := Nat.le_zero.1 none
    exact starved_zero
  | succ j ih =>
    refine .pass_label stands ?_
    refine Matches.bind (passes.le (Nat.le_of_succ_le bound)) fun o target ends => ?_
    cases o with
    | none =>
      obtain rfl := ends
      exact ih (Nat.le_of_succ_le bound)
    | some ending => exact .pure ends fun _ _ alike => alike

/-- A statement may be followed by some that only lead on. -/
theorem MatchesAlike.lead_on {x : Run Ending} {enclosing : List LoopLabels} {start : Next}
    {stop stop' : Nat}
    (given : MatchesAlike p limit body c held n start x (EndsAt body enclosing stop))
    (leads : MatchesAlike p limit body c held n (.goto stop) (pure Ending.next)
      (EndsAt body enclosing stop')) :
    MatchesAlike p limit body c held n start x (EndsAt body enclosing stop') := by
  rw [← bind_pure x]
  refine Matches.bind given fun ending target ends => ?_
  cases ending with
  | next =>
    obtain rfl := ends
    exact leads
  | jump l => exact .pure ends fun _ _ alike => alike
  | ret value => exact .pure ends fun _ _ alike => alike

/-- The label behind a statement is passed too. -/
theorem MatchesAlike.before_label {x : Run Ending} {enclosing : List LoopLabels} {l : Label}
    {code : List Stmt} {start : Next} {stop : Nat}
    (given : MatchesAlike p limit body c held (n + 1) start x (EndsAt body enclosing stop))
    (stands : CodeAt body stop (.label l :: code)) :
    MatchesAlike p limit body c held (n + 1) start x (EndsAt body enclosing (stop + 1)) :=
  given.lead_on (.pass_label stands (.pure rfl fun _ _ alike => alike))

/-- What comes after the body of a loop is run unless the body ended the loop. -/
theorem MatchesAlike.after_body {x : Run Ending} {rest : Run (Option Ending)}
    {labels : LoopLabels} {enclosing : List LoopLabels} {start : Next} {stop head exit : Nat}
    (given : MatchesAlike p limit body c held n start x (EndsAt body (labels :: enclosing) stop))
    (onContinue : body.labelPlace? labels.onContinue = some stop)
    (onBreak : body.labelPlace? labels.onBreak = some exit)
    (goesOn : MatchesAlike p limit body c held n (.goto stop) rest
      (PassEnds body enclosing head exit)) :
    MatchesAlike p limit body c held n start
      (do
        match labels.after? (← x) with
        | some ending => return some ending
        | none => rest) (PassEnds body enclosing head exit) := by
  refine Matches.bind given fun ending target ends => ?_
  have passEnds := after?_ends ends onContinue onBreak
  cases after : labels.after? ending with
  | none =>
    rw [after] at passEnds
    obtain rfl := passEnds
    exact goesOn
  | some ending =>
    rw [after] at passEnds
    exact .pure passEnds fun _ _ alike => alike

/-- The variable of a `for` loop is compared with the value of the upper bound in the first
run, and with the hidden variable in the second. -/
theorem Expr.compare_follows (first : Invoke) (second : Nat → Invoke) {v u : Var} {op : BinaryOp}
    {upper : Value} (member : (u, upper) ∈ held) (below : v.id < c.next)
    (unknown : v.constant = none) (hidden : u.constant = none)
    (strict : Expr.decisive? op.action = none) :
    FollowsAlike c held Eq n ((Expr.binary (.var v) op (.literal upper)).eval first)
      (fun m => (Expr.binary (.var v) op (.var u)).eval (second m)) := by
  have reads : FollowsAlike c held Eq n (pure upper) (fun _ => Run.read u) := fun s t alike =>
    ⟨upper, t, rfl, alike, .of_const (by rw [Run.read_apply, alike.holds _ member])⟩
  simp only [Expr.eval, Expr.constant?, Expr.foldBinary, BinaryAction.shortCircuit?, unknown,
    hidden, strict, Option.filter_none]
  refine (Run.read_follows below).bind ?_
  rintro left _ rfl
  refine reads.bind ?_
  rintro right _ rfl
  exact Run.ofExcept_follows _

/-- A comparison with a variable of unknown value is made when the code runs. -/
theorem jumpIf_compare {v u : Var} {op : BinaryOp} {l : Label} {value : Bool}
    (unknown : v.constant = none) (hidden : u.constant = none)
    (strict : Expr.decisive? op.action = none) :
    jumpIf l (.binary (.var v) op (.var u)) value =
      [.gotoIf l (.binary (.var v) op (.var u)) value] := by
  simp [jumpIf, Expr.constantBool?, Expr.constant?, Expr.foldBinary, unknown, hidden, strict]

theorem stepCode_of_unknown {v u : Var} (labels : LoopLabels) (unknown : v.constant = none)
    (hidden : u.constant = none) :
    stepCode v u labels = [.label labels.onContinue,
      .gotoIf labels.onBreak (.binary (.var v) .intEquals (.var u)) true,
      .expr (Expr.increment v)] := by
  unfold stepCode
  rw [jumpIf_compare unknown hidden rfl]
  rfl

namespace Paired

variable (paired : Paired p limit body callable c a n)
include paired

/-- The statement at a place does what `x` does. -/
theorem matches_of_follows {x : Run α} {ends : α → Next → Prop} {place : Nat} {stmt : Stmt}
    {code : List Stmt} {after : α → State → State → Prop}
    (stands : CodeAt body place (stmt :: code))
    (follows : Follows (Alike c held) after (AlikeOutside c) ends n x
      (fun m => Run.stmt (p.callee limit m) body a.isEntry place stmt)) :
    Matches p limit body (Alike c held) after (AlikeOutside c) (n + 1) (.goto place) x ends :=
  .of_follows stands.get (fun _ _ alike => alike.inEntry_eq.trans paired.entry.symm) follows

theorem gotoIf_matches {first second : Expr} {l : Label} {place target : Nat} {value : Bool}
    {code : List Stmt} (stands : CodeAt body place (.gotoIf l second value :: code))
    (leads : body.labelPlace? l = some target)
    (same : FollowsAlike c held Eq n (first.eval a.invoke)
      (fun m => second.eval (p.callee limit m))) :
    MatchesAlike p limit body c held (n + 1) (.goto place) (Run.test a.invoke first)
      (fun b next => next = .goto (if b = value then target else place + 1)) := by
  refine paired.matches_of_follows stands ?_
  unfold Run.test
  simp only [Run.stmt]
  refine same.bind ?_
  rintro result _ rfl
  cases result with
  | bool b =>
    by_cases equal : b = value
    · simp only [equal, if_true, Run.jump, leads]
      exact .pure (by simp) fun _ _ alike => alike
    · simp only [equal, if_false]
      exact .pure (by simp [equal]) fun _ _ alike => alike
  | _ => exact .defect _ fun _ _ alike => alike.outside

/-- A condition of known value leaves a plain jump or none, and its value is the same. -/
theorem jumpIf_matches {cond : Expr} {l : Label} {place target : Nat} {value : Bool}
    (stands : CodeAt body place (jumpIf l cond value))
    (leads : body.labelPlace? l = some target) (below : ∀ v ∈ cond.vars, v.id < c.next)
    (called : ∀ f ∈ cond.calls, callable f) :
    MatchesAlike p limit body c held (n + 1) (.goto place) (Run.test a.invoke cond)
      (fun b next => next =
        .goto (if b = value then target else place + (jumpIf l cond value).length)) := by
  cases known : cond.constantBool? with
  | none =>
    have code : jumpIf l cond value = [.gotoIf l cond value] := by simp [jumpIf, known]
    rw [code] at stands ⊢
    exact paired.gotoIf_matches stands leads (cond.eval_follows paired.calls below called)
  | some b =>
    have constant : cond.constant? = some (.bool b) := by
      obtain ⟨result, given, isBool⟩ := Option.bind_eq_some_iff.1 known
      cases result <;> simp_all [Value.asBool?]
    have test : Run.test a.invoke cond = pure b := by
      rw [Run.test, cond.eval_of_constant constant]
      rfl
    rw [test]
    by_cases equal : b = value
    · have code : jumpIf l cond value = [.goto l] := by simp [jumpIf, known, equal]
      rw [code] at stands
      refine .jump stands leads ?_
      exact .pure (by simp [equal]) fun _ _ alike => alike
    · have code : jumpIf l cond value = [] := by simp [jumpIf, known, equal]
      rw [code]
      exact .pure (by simp [equal]) fun _ _ alike => alike

theorem declare_matches {v : Var} {e : Expr} {place : Nat} {code : List Stmt}
    (stands : CodeAt body place (.declare v e :: code)) (belowVar : v.id < c.next)
    (below : ∀ w ∈ e.vars, w.id < c.next) (called : ∀ f ∈ e.calls, callable f) :
    MatchesAlike p limit body c held (n + 1) (.goto place) (Run.store a.invoke v e)
      (fun _ next => next = .goto (place + 1)) := by
  refine paired.matches_of_follows stands ?_
  refine (e.eval_follows paired.calls below called).bind ?_
  rintro value _ rfl
  rw [← bind_pure (Run.write v value)]
  exact (Run.write_follows belowVar value).bind fun _ _ _ => .pure rfl fun _ _ alike => alike

/-- The value of the upper bound is held by the hidden variable that the code declares. -/
theorem hold_matches {u : Var} {e : Expr} {place : Nat} {code : List Stmt}
    (stands : CodeAt body place (.declare u e :: code)) (hidden : c.next ≤ u.id)
    (spares : held.Spares u) (below : ∀ w ∈ e.vars, w.id < c.next)
    (called : ∀ f ∈ e.calls, callable f) :
    Matches p limit body (Alike c held) (fun value => Alike c ((u, value) :: held))
      (AlikeOutside c) (n + 1) (.goto place) (e.eval a.invoke)
      (fun _ next => next = .goto (place + 1)) := by
  refine paired.matches_of_follows stands ?_
  rw [← bind_pure (e.eval a.invoke)]
  refine (e.eval_follows paired.calls below called).bind ?_
  rintro value _ rfl
  exact fun s t alike => ⟨.goto (place + 1), t.write u value, rfl, alike.hold hidden spares value,
    .of_const rfl⟩

theorem expr_matches {e : Expr} {place : Nat} {code : List Stmt}
    (stands : CodeAt body place (.expr e :: code)) (below : ∀ w ∈ e.vars, w.id < c.next)
    (called : ∀ f ∈ e.calls, callable f) :
    MatchesAlike p limit body c held (n + 1) (.goto place) ((Stmt.expr e).exec a)
      (fun ending next => ending = .next ∧ next = .goto (place + 1)) := by
  refine paired.matches_of_follows stands ?_
  simp only [Stmt.exec, Run.stmt]
  refine (e.evalAlone_follows paired.calls below called).bind ?_
  rintro value _ rfl
  cases a.isEntry with
  | true =>
    exact (Run.modify_follows fun s t alike => alike.keepLast value).bind fun _ _ _ =>
      .pure ⟨rfl, rfl⟩ fun _ _ alike => alike
  | false => exact .pure ⟨rfl, rfl⟩ fun _ _ alike => alike

/-- The step of a `for` loop keeps its value in the second run, and in the first one where
it counts. -/
theorem step_matches {v : Var} {place : Nat} {code : List Stmt}
    (stands : CodeAt body place (.expr (Expr.increment v) :: code)) (below : v.id < c.next) :
    MatchesAlike p limit body c held (n + 1) (.goto place)
      (do
        let value ← (Expr.increment v).eval a.invoke
        if a.isEntry && a.stepCounts then modify fun s => { s with last := some value }
        return (none : Option Ending))
      (fun ending next => ending = none ∧ next = .goto (place + 1)) := by
  refine paired.matches_of_follows stands ?_
  have alone (invoke : Invoke) : (Expr.increment v).evalAlone invoke =
      (do return some (← (Expr.increment v).eval invoke)) := rfl
  simp only [Run.stmt, alone, bind_assoc, pure_bind]
  refine ((Expr.increment v).eval_follows paired.calls (by simp [Expr.increment, Expr.vars, below])
    (by simp [Expr.increment, Expr.calls])).bind ?_
  rintro value _ rfl
  rw [paired.steps]
  cases a.isEntry with
  | true =>
    cases compared : c.comparesLast with
    | true =>
      exact (Run.modify_follows fun s t alike => alike.keepLast (some value)).bind fun _ _ _ =>
        .pure ⟨rfl, rfl⟩ fun _ _ alike => alike
    | false =>
      exact fun s t alike => ⟨.goto (place + 1), _, ⟨rfl, rfl⟩,
        alike.keepSecondLast compared (some value), .of_const rfl⟩
  | false => exact .pure ⟨rfl, rfl⟩ fun _ _ alike => alike

theorem ret_matches {value : Option Expr} {enclosing : List LoopLabels} {place stop : Nat}
    {code : List Stmt} (stands : CodeAt body place (.ret value :: code))
    (below : ∀ w ∈ (Stmt.ret value).vars, w.id < c.next)
    (called : ∀ f ∈ (Stmt.ret value).calls, callable f) :
    MatchesAlike p limit body c held (n + 1) (.goto place) ((Stmt.ret value).exec a)
      (EndsAt body enclosing stop) := by
  refine paired.matches_of_follows stands ?_
  cases value with
  | none => exact .pure rfl fun _ _ alike => alike
  | some e =>
    refine (e.eval_follows paired.calls below called).bind ?_
    rintro value _ rfl
    exact .pure rfl fun _ _ alike => alike

/-- A loop that is entered at its test, where the rest of a pass is `inner`. -/
theorem loopCode_performs {enclosing : List LoopLabels} {l : Label} {labels : LoopLabels}
    {first second : Expr} {code : List Stmt} {inner : Run (Option Ending)}
    (tests : ∀ place target, CodeAt body place (jumpIf l second true) →
      body.labelPlace? l = some target →
      MatchesAlike p limit body c held (n + 1) (.goto place) (Run.test a.invoke first)
        fun b next => next =
          .goto (if b = true then target else place + (jumpIf l second true).length))
    (goesOn : ∀ place exit, CodeAt body place code →
      body.labelPlace? labels.onContinue = some (place + code.length) →
      body.labelPlace? labels.onBreak = some exit →
      MatchesAlike p limit body c held (n + 1) (.goto place) inner
        (PassEnds body enclosing (place + code.length) exit)) :
    Performs p limit body c held n enclosing (loopCode l labels second code)
      (Run.loop (do if ← Run.test a.invoke first then inner else return some .next) a.fuel) := by
  intro place stands
  have whole : loopCode l labels second code = .goto labels.onContinue :: .label l ::
      (code ++ .label labels.onContinue ::
        (jumpIf l second true ++ [.label labels.onBreak])) := by simp [loopCode]
  have stop : place + (loopCode l labels second code).length =
      place + 1 + 1 + code.length + 1 + (jumpIf l second true).length + 1 := by
    simp [loopCode]
    omega
  rw [stop]
  rw [whole] at stands
  have atBody := stands.tail.tail
  have onContinue := atBody.right.labelPlace? paired.nodup rfl
  have onBreak := atBody.right.tail.right.labelPlace? paired.nodup rfl
  have onBody := stands.tail.labelPlace? paired.nodup rfl
  refine MatchesAlike.before_label ?_ atBody.right.tail.right
  refine Matches.le (.jump stands onContinue (n := n + 1) ?_) (by omega)
  rw [paired.fuel]
  refine MatchesAlike.loop atBody.right ?_ (n + 1) (Nat.le_refl _)
  refine Matches.bind (tests _ _ atBody.right.tail.left onBody) fun b target ends => ?_
  obtain rfl := ends
  cases b with
  | true =>
    exact .pass_label stands.tail ((goesOn _ _ atBody.left onContinue onBreak).le (Nat.le_succ n))
  | false => exact .pure rfl fun _ _ alike => alike

theorem whileDo_performs {enclosing : List LoopLabels} {l : Label} {labels : LoopLabels}
    {cond : Expr} {code : List Stmt} {x : Run Ending} (below : ∀ v ∈ cond.vars, v.id < c.next)
    (called : ∀ f ∈ cond.calls, callable f) (found : LabelsFound body enclosing)
    (inner : LabelsFound body (labels :: enclosing) →
      Performs p limit body c held n (labels :: enclosing) code x) :
    Performs p limit body c held n enclosing (loopCode l labels cond code)
      (Run.loop (do
        if ← Run.test a.invoke cond then return labels.after? (← x) else return some .next)
        a.fuel) := by
  refine paired.loopCode_performs
    (fun place target stands leads => paired.jumpIf_matches stands leads below called)
    fun place exit stands onContinue onBreak => ?_
  refine (inner (found.cons onContinue onBreak) place stands).bind fun ending target ends => ?_
  exact .pure (after?_ends ends onContinue onBreak) fun _ _ alike => alike

theorem doWhile_performs {enclosing : List LoopLabels} {l : Label} {labels : LoopLabels}
    {cond : Expr} {code : List Stmt} {x : Run Ending} (below : ∀ v ∈ cond.vars, v.id < c.next)
    (called : ∀ f ∈ cond.calls, callable f) (found : LabelsFound body enclosing)
    (inner : LabelsFound body (labels :: enclosing) →
      Performs p limit body c held n (labels :: enclosing) code x) :
    Performs p limit body c held n enclosing
      ([.label l] ++ code ++ [.label labels.onContinue] ++ jumpIf l cond true ++
        [.label labels.onBreak])
      (Run.loop (do
        match labels.after? (← x) with
        | some ending => return some ending
        | none => if ← Run.test a.invoke cond then return none else return some .next)
        a.fuel) := by
  intro place stands
  have whole : [.label l] ++ code ++ [.label labels.onContinue] ++ jumpIf l cond true ++
      [.label labels.onBreak] = .label l :: (code ++ .label labels.onContinue ::
        (jumpIf l cond true ++ [.label labels.onBreak])) := by simp
  rw [whole] at stands ⊢
  have stop : place + (Stmt.label l :: (code ++ .label labels.onContinue ::
      (jumpIf l cond true ++ [.label labels.onBreak]))).length =
        place + 1 + code.length + 1 + (jumpIf l cond true).length + 1 := by
    simp
    omega
  rw [stop]
  have onBody := stands.labelPlace? paired.nodup rfl
  have atContinue := stands.tail.right
  have onContinue := atContinue.labelPlace? paired.nodup rfl
  have onBreak := atContinue.tail.right.labelPlace? paired.nodup rfl
  refine MatchesAlike.before_label ?_ atContinue.tail.right
  rw [paired.fuel]
  refine MatchesAlike.loop stands ?_ (n + 1) (Nat.le_refl _)
  refine (inner (found.cons onContinue onBreak) _ stands.tail.left).after_body onContinue onBreak ?_
  refine (Matches.pass_label atContinue ?_).le (Nat.le_succ (n + 1))
  refine (paired.jumpIf_matches atContinue.tail.left onBody below called).bind
    fun b target ends => ?_
  obtain rfl := ends
  cases b with
  | true => exact .pure rfl fun _ _ alike => alike
  | false => exact .pure rfl fun _ _ alike => alike

/-- What follows the body of a `for` loop in a pass. -/
theorem stepCode_matches {enclosing : List LoopLabels} {labels : LoopLabels} {v u : Var}
    {upper : Value} {place exit : Nat} (stands : CodeAt body place (stepCode v u labels))
    (onBreak : body.labelPlace? labels.onBreak = some exit) (member : (u, upper) ∈ held)
    (below : v.id < c.next) (unknown : v.constant = none) (hidden : u.constant = none) :
    MatchesAlike p limit body c held (n + 1) (.goto place)
      (do
        if ← Run.test a.invoke (.binary (.var v) .intEquals (.literal upper)) then
          return some Ending.next
        else
          let value ← (Expr.increment v).eval a.invoke
          if a.isEntry && a.stepCounts then modify fun s => { s with last := some value }
          return none) (PassEnds body enclosing (place + 3) exit) := by
  rw [stepCode_of_unknown labels unknown hidden] at stands
  refine (Matches.pass_label stands ?_).le (Nat.le_succ (n + 1))
  refine (paired.gotoIf_matches stands.tail onBreak
    (Expr.compare_follows _ _ member below unknown hidden rfl)).bind fun b target ends => ?_
  obtain rfl := ends
  cases b with
  | true => exact .pure rfl fun _ _ alike => alike
  | false =>
    refine (paired.step_matches stands.tail.tail below).mono ?_ fun _ _ _ alike => alike
    rintro _ _ ⟨rfl, rfl⟩
    rfl

theorem forIn_performs {enclosing : List LoopLabels} {l test : Label} {labels : LoopLabels}
    {v u : Var} {lower upper : Expr} {code : List Stmt} {x : Run Ending}
    (belowVar : v.id < c.next) (below : ∀ w ∈ lower.vars ++ upper.vars, w.id < c.next)
    (called : ∀ f ∈ lower.calls ++ upper.calls, callable f) (unknown : v.constant = none)
    (hidden : u.constant = none) (fresh : c.next ≤ u.id) (spares : held.Spares u)
    (found : LabelsFound body enclosing)
    (inner : ∀ value, LabelsFound body (labels :: enclosing) →
      Performs p limit body c ((u, value) :: held) n (labels :: enclosing) code x) :
    Performs p limit body c held n enclosing
      ([.declare v lower, .declare u upper] ++
        loopCode l ⟨labels.onBreak, test⟩ (.binary (.var v) .intLessOrEquals (.var u))
          (code ++ stepCode v u labels))
      (do
        Run.store a.invoke v lower
        let value ← upper.eval a.invoke
        Run.loop (do
          if ← Run.test a.invoke (.binary (.var v) .intLessOrEquals (.literal value)) then
            match labels.after? (← x) with
            | some ending => return some ending
            | none =>
              if ← Run.test a.invoke (.binary (.var v) .intEquals (.literal value)) then
                return some .next
              else
                let value ← (Expr.increment v).eval a.invoke
                if a.isEntry && a.stepCounts then modify fun s => { s with last := some value }
                return none
          else return some .next) a.fuel) := by
  intro place stands
  rw [List.forall_mem_append] at below called
  refine (paired.declare_matches stands.left belowVar below.1 called.1).bind ?_
  rintro _ _ rfl
  refine (paired.hold_matches stands.left.tail fresh spares below.2 called.2).bind ?_
  rintro value _ rfl
  rw [List.length_append, ← Nat.add_assoc]
  have member : (u, value) ∈ (u, value) :: held := List.mem_cons_self
  refine Matches.mono (paired.loopCode_performs ?_ ?_ _ stands.right) (fun _ _ ends => ends)
    fun _ _ _ alike => alike.mono fun _ member => List.mem_cons_of_mem _ member
  · intro place target stands leads
    rw [jumpIf_compare unknown hidden rfl] at stands ⊢
    exact paired.gotoIf_matches stands leads
      (Expr.compare_follows _ _ member belowVar unknown hidden rfl)
  · intro place exit stands _ onBreak
    have length : (stepCode v u labels).length = 3 := by
      rw [stepCode_of_unknown labels unknown hidden]
      rfl
    have onContinue : body.labelPlace? labels.onContinue = some (place + code.length) :=
      stands.right.labelPlace? paired.nodup rfl
    rw [List.length_append, length, ← Nat.add_assoc]
    exact (inner value (found.cons onContinue onBreak) _ stands.left).after_body onContinue onBreak
      (paired.stepCode_matches stands.right onBreak member belowVar unknown hidden)

theorem ifThen_performs {enclosing : List LoopLabels} {cond : Expr} {done : Label}
    {code : List Stmt} {x : Run Ending} (below : ∀ v ∈ cond.vars, v.id < c.next)
    (called : ∀ f ∈ cond.calls, callable f)
    (inner : Performs p limit body c held n enclosing code x) :
    Performs p limit body c held n enclosing (jumpIf done cond false ++ code ++ [.label done])
      (do if ← Run.test a.invoke cond then x else return .next) := by
  intro place stands
  have onEnd := stands.right.labelPlace? paired.nodup rfl
  rw [List.length_append, List.length_singleton, ← Nat.add_assoc]
  refine MatchesAlike.before_label ?_ stands.right
  refine (paired.jumpIf_matches stands.left.left onEnd below called).bind fun b target ends => ?_
  obtain rfl := ends
  cases b with
  | true =>
    have passes := inner _ stands.left.right
    rw [Nat.add_assoc, ← List.length_append] at passes
    exact passes
  | false => exact .pure rfl fun _ _ alike => alike

theorem ifElse_performs {enclosing : List LoopLabels} {cond : Expr} {done otherwise : Label}
    {code code' : List Stmt} {x y : Run Ending} (below : ∀ v ∈ cond.vars, v.id < c.next)
    (called : ∀ f ∈ cond.calls, callable f)
    (inner : Performs p limit body c held n enclosing code x)
    (inner' : Performs p limit body c held n enclosing code' y) :
    Performs p limit body c held n enclosing
      (jumpIf otherwise cond false ++ code ++ [.goto done, .label otherwise] ++ code' ++
        [.label done])
      (do if ← Run.test a.invoke cond then x else y) := by
  intro place stands
  have atMiddle := stands.left.left.right
  have onElse := atMiddle.tail.labelPlace? paired.nodup rfl
  have onEnd := stands.right.labelPlace? paired.nodup rfl
  rw [List.length_append, List.length_singleton, ← Nat.add_assoc]
  refine MatchesAlike.before_label ?_ stands.right
  refine (paired.jumpIf_matches stands.left.left.left.left onElse below called).bind
    fun b target ends => ?_
  obtain rfl := ends
  cases b with
  | true =>
    have passes := inner _ stands.left.left.left.right
    rw [Nat.add_assoc, ← List.length_append] at passes
    exact passes.lead_on (.jump atMiddle onEnd (.pure rfl fun _ _ alike => alike))
  | false =>
    have passes := inner' _ stands.left.right
    rw [Nat.add_assoc, ← List.length_append] at passes
    refine (Matches.pass_label atMiddle.tail ?_).le (Nat.le_succ (n + 1))
    rw [List.length_append] at passes
    exact passes

end Paired

end

/-- What a statement needs that is lowered from the number `k` on and mentions these
variables and functions: held variables keep out of the way of its hidden ones. -/
structure Suits (c : SideBySide) (callable : Fn → Prop) (held : Held) (vars : List Var)
    (calls : List Fn) (loopVars : List Var) (k : Nat) : Prop where
  below : ∀ v ∈ vars, v.id < c.next
  called : ∀ f ∈ calls, callable f
  fresh : c.next ≤ k
  room : ∀ b ∈ held, b.1.id < k ∨ (b.1.isGlobal = true ∧ ∀ v ∈ loopVars, v.isGlobal = false)

theorem Suits.part {c : SideBySide} {callable : Fn → Prop} {held : Held}
    {vars vars' : List Var} {calls calls' : List Fn} {loopVars loopVars' : List Var} {k k' : Nat}
    (suits : Suits c callable held vars calls loopVars k) (le : k ≤ k')
    (fewer : ∀ v ∈ vars', v ∈ vars) (fewerCalls : ∀ f ∈ calls', f ∈ calls)
    (fewerLoops : ∀ v ∈ loopVars', v ∈ loopVars) :
    Suits c callable held vars' calls' loopVars' k' where
  below v member := suits.below v (fewer v member)
  called f member := suits.called f (fewerCalls f member)
  fresh := Nat.le_trans suits.fresh le
  room b member := by
    rcases suits.room b member with lt | ⟨isGlobal, local'⟩
    · exact .inl (Nat.lt_of_lt_of_le lt le)
    · exact .inr ⟨isGlobal, fun v member => local' v (fewerLoops v member)⟩

theorem Stmt.isGlobal_upperBound (v : Var) (k : Nat) :
    (upperBound v k).isGlobal = v.isGlobal := by
  unfold Var.isGlobal upperBound Var.isGlobal
  cases v.kind <;> rfl

theorem Suits.spares {c : SideBySide} {callable : Fn → Prop} {held : Held} {vars : List Var}
    {calls : List Fn} {loopVars : List Var} {k : Nat} {v : Var}
    (suits : Suits c callable held vars calls (v :: loopVars) k) :
    held.Spares (Stmt.upperBound v k) := by
  intro b member sameKind
  rcases suits.room b member with lt | ⟨isGlobal, local'⟩
  · exact Nat.ne_of_lt lt
  · rw [Stmt.isGlobal_upperBound, isGlobal, local' v List.mem_cons_self] at sameKind
    contradiction

theorem Suits.hold {c : SideBySide} {callable : Fn → Prop} {held : Held} {vars : List Var}
    {calls : List Fn} {loopVars : List Var} {k : Nat} {b : Var × Value}
    (suits : Suits c callable held vars calls loopVars k) (before : b.1.id < k) :
    Suits c callable (b :: held) vars calls loopVars k :=
  { suits with room := List.forall_mem_cons.2 ⟨.inl before, suits.room⟩ }

namespace Stmt

variable {p : Program} {limit : Option Nat} {body : Body} {callable : Fn → Prop}
  {c : SideBySide} {a : Activation} {n : Nat}

mutual

/-- The flat code of a statement does what the statement does. -/
theorem lower_performs (paired : Paired p limit body callable c a n) (s : Stmt) {held : Held}
    {enclosing : List LoopLabels} {k : Nat} (structured : s.IsStructured enclosing)
    (suits : Suits c callable held s.vars s.calls s.loopVars k)
    (found : LabelsFound body enclosing) :
    Performs p limit body c held n enclosing (s.lower k).1 (s.exec a) := by
  cases s with
  | block ss => exact lowerAll_performs paired ss structured suits found
  | declare v e =>
    intro place stands
    obtain ⟨belowVar, below⟩ := List.forall_mem_cons.1 suits.below
    refine (paired.declare_matches stands belowVar below suits.called).bind ?_
    rintro _ _ rfl
    exact .pure rfl fun _ _ alike => alike
  | ifThen cond t =>
    obtain ⟨below, _⟩ := List.forall_mem_append.1 suits.below
    obtain ⟨called, _⟩ := List.forall_mem_append.1 suits.called
    exact paired.ifThen_performs below called (lower_performs paired t structured
      (suits.part (Nat.le_succ k) (by grind [vars]) (by grind [calls]) (by grind [loopVars])) found)
  | ifElse cond t e =>
    obtain ⟨below, _⟩ := List.forall_mem_append.1 (List.forall_mem_append.1 suits.below).1
    obtain ⟨called, _⟩ := List.forall_mem_append.1 (List.forall_mem_append.1 suits.called).1
    have le := Nat.le_trans (Nat.le_add_right k 2) (le_lower t (k + 2))
    exact paired.ifElse_performs below called
      (lower_performs paired t structured.1
        (suits.part (Nat.le_add_right k 2) (by grind [vars]) (by grind [calls])
          (by grind [loopVars])) found)
      (lower_performs paired e structured.2
        (suits.part le (by grind [vars]) (by grind [calls]) (by grind [loopVars])) found)
  | whileDo cond t labels =>
    obtain ⟨below, _⟩ := List.forall_mem_append.1 suits.below
    obtain ⟨called, _⟩ := List.forall_mem_append.1 suits.called
    exact paired.whileDo_performs below called found (lower_performs paired t structured
      (suits.part (Nat.le_succ k) (by grind [vars]) (by grind [calls]) (by grind [loopVars])))
  | doWhile t cond labels =>
    obtain ⟨below, _⟩ := List.forall_mem_append.1 suits.below
    obtain ⟨called, _⟩ := List.forall_mem_append.1 suits.called
    exact paired.doWhile_performs below called found (lower_performs paired t structured
      (suits.part (Nat.le_succ k) (by grind [vars]) (by grind [calls]) (by grind [loopVars])))
  | forIn v range t labels =>
    obtain ⟨⟨lower, upper, rfl⟩, unknown, structured⟩ := structured
    obtain ⟨belowVar, belowRest⟩ := List.forall_mem_cons.1 suits.below
    obtain ⟨below, _⟩ := List.forall_mem_append.1 belowRest
    obtain ⟨called, _⟩ := List.forall_mem_append.1 suits.called
    have inside : Suits c callable held t.vars t.calls t.loopVars (k + 3) :=
      suits.part (Nat.le_add_right k 3) (by grind [vars]) (by grind [calls]) (by grind [loopVars])
    exact paired.forIn_performs belowVar below called unknown rfl suits.fresh suits.spares found
      fun value => lower_performs paired t structured (inside.hold (show k < k + 3 by omega))
  | label l => exact structured.elim
  | goto l =>
    intro place stands
    obtain ⟨q, leads⟩ := found l structured
    exact .jump stands leads (.pure ⟨structured, q, leads, rfl⟩ fun _ _ alike => alike)
  | gotoIf l cond value => exact structured.elim
  | ret value => exact fun place stands => paired.ret_matches stands suits.below suits.called
  | expr e =>
    intro place stands
    refine (paired.expr_matches stands suits.below suits.called).mono ?_ fun _ _ _ alike => alike
    rintro _ _ ⟨rfl, rfl⟩
    rfl

theorem lowerAll_performs (paired : Paired p limit body callable c a n) (ss : List Stmt)
    {held : Held} {enclosing : List LoopLabels} {k : Nat}
    (structured : AllStructured enclosing ss)
    (suits : Suits c callable held (varsOf ss) (callsOf ss) (loopVarsOf ss) k)
    (found : LabelsFound body enclosing) :
    Performs p limit body c held n enclosing (lowerAll ss k).1 (execAll a ss) := by
  intro place stands
  cases ss with
  | nil => exact .pure rfl fun _ _ alike => alike
  | cons s ss =>
    rw [lowerAll_cons] at stands ⊢
    have first := lower_performs paired s structured.1
      (suits.part (Nat.le_refl k) (by grind [varsOf]) (by grind [callsOf]) (by grind [loopVarsOf]))
      found place stands.left
    refine first.bind fun ending target ends => ?_
    cases ending with
    | next =>
      obtain rfl := ends
      have rest := lowerAll_performs paired ss structured.2
        (suits.part (le_lower s k) (by grind [varsOf]) (by grind [callsOf])
          (by grind [loopVarsOf])) found _ stands.right
      rw [List.length_append, ← Nat.add_assoc]
      exact rest
    | jump l => exact .pure ends fun _ _ alike => alike
    | ret value => exact .pure ends fun _ _ alike => alike

end

end Stmt

end ScriptLang
