import ScriptLang.Proofs.LoweringSimulation

/-! A program of structured bodies and the program of their flat code do the same: one of
them ends if the other does, and then with the same fault or value, the same globals and
the same input and output. -/

namespace ScriptLang

theorem Body.lower_apply (returns : Ty) (body : Body) (k : Nat) :
    (body.lower returns k).1 = close returns (Stmt.lowerAll body k).1 := rfl

theorem Body.close_eq_append (returns : Ty) (code : Body) :
    ∃ rest, close returns code = code ++ rest ∧ (rest = [] ∨ rest = [.ret none]) := by
  unfold close
  split
  · exact ⟨_, rfl, .inr rfl⟩
  · exact ⟨[], (List.append_nil code).symm, .inl rfl⟩

theorem Bodies.lower_cons (f : Fn) (body : Body) (bodies : Bodies) (k : Nat) :
    Bodies.lower ((f, body) :: bodies) k =
      ((f, (body.lower f.returns k).1) :: (Bodies.lower bodies (body.lower f.returns k).2).1,
        (Bodies.lower bodies (body.lower f.returns k).2).2) := by
  simp only [Bodies.lower, List.mapM_cons]
  rfl

theorem Bodies.body?_cons (g : Fn) (body : Body) (bodies : Bodies) (f : Fn) :
    Bodies.body? ((g, body) :: bodies) f = if g.id = f.id then some body else bodies.body? f := by
  unfold Bodies.body?
  by_cases same : g.id = f.id <;> simp [same]

def IsLowered (next : Nat) : Option Body → Option Body → Prop
  | none, flat => flat = none
  | some body, flat => ∃ returns k, next ≤ k ∧ flat = some (body.lower returns k).1

theorem IsLowered.le {next k : Nat} {body flat : Option Body} (lowered : IsLowered k body flat)
    (le : next ≤ k) : IsLowered next body flat := by
  cases body with
  | none => exact lowered
  | some body =>
    obtain ⟨returns, j, bound, equal⟩ := lowered
    exact ⟨returns, j, Nat.le_trans le bound, equal⟩

theorem Bodies.body?_lower (f : Fn) (bodies : Bodies) (k : Nat) :
    k ≤ (bodies.lower k).2 ∧ IsLowered k (bodies.body? f) ((bodies.lower k).1.body? f) := by
  induction bodies generalizing k with
  | nil => exact ⟨Nat.le_refl k, rfl⟩
  | cons entry bodies ih =>
    obtain ⟨g, body⟩ := entry
    obtain ⟨le, lowered⟩ := ih (body.lower g.returns k).2
    have le' := body.le_lower g.returns k
    rw [lower_cons]
    refine ⟨Nat.le_trans le' le, ?_⟩
    simp only [body?_cons]
    by_cases same : g.id = f.id
    · simp only [if_pos same]
      exact ⟨g.returns, k, Nat.le_refl k, rfl⟩
    · simp only [if_neg same]
      exact lowered.le le'

def Bodies.lookup? (f : Fn) (units : List Bodies) : Option Body := units.findSome? (Bodies.body? · f)

theorem Bodies.lookup?_lower (f : Fn) (units : List Bodies) (k : Nat) :
    IsLowered k (lookup? f units) (lookup? f (units.mapM Bodies.lower k).1) := by
  induction units generalizing k with
  | nil => rfl
  | cons bodies units ih =>
    obtain ⟨le, lowered⟩ := bodies.body?_lower f k
    have rest := (ih (bodies.lower k).2).le le
    have code : (((bodies :: units).mapM Bodies.lower) k).1 =
        (bodies.lower k).1 :: (units.mapM Bodies.lower (bodies.lower k).2).1 := by
      rw [List.mapM_cons]
      rfl
    rw [code]
    unfold lookup? at rest ⊢
    rw [List.findSome?_cons, List.findSome?_cons]
    cases given : bodies.body? f with
    | none =>
      rw [given] at lowered
      rw [show (bodies.lower k).1.body? f = none from lowered]
      exact rest
    | some body =>
      rw [given] at lowered
      obtain ⟨returns, j, bound, equal⟩ := lowered
      rw [equal]
      exact ⟨returns, j, bound, rfl⟩

theorem Program.body?_lower (p : Program) (f : Fn) (k : Nat) :
    IsLowered k (p.body? f) ((p.lower k).1.body? f) := by
  have lowered := Bodies.lookup?_lower f (p.bodies :: p.earlier) k
  rw [List.mapM_cons] at lowered
  exact lowered

/-- The flat code of a body does in one activation what the body does. -/
theorem Body.lower_matches {q : Program} {limit : Option Nat} {callable : Fn → Prop}
    {c : SideBySide} {a : Activation} {n : Nat} {held : Held} {body : Body} {returns : Ty}
    {k : Nat} (paired : Paired q limit (body.lower returns k).1 callable c a n)
    (structured : body.IsStructured c.next)
    (suits : Suits c callable held (Stmt.varsOf body) (Stmt.callsOf body)
      (Stmt.loopVarsOf body) k) :
    MatchesAlike q limit (body.lower returns k).1 c held (n + 1) (.goto 0) (body.exec a)
      (Halts (body.lower returns k).1) := by
  obtain ⟨rest, equal, shape⟩ := close_eq_append returns (Stmt.lowerAll body k).1
  rw [← Body.lower_apply] at equal
  have stands : CodeAt (body.lower returns k).1 0 ((Stmt.lowerAll body k).1 ++ rest) :=
    ⟨[], [], by simpa using equal, rfl⟩
  have none_enclosing : LabelsFound (body.lower returns k).1 [] := fun l targets => by
    obtain ⟨_, member, _⟩ := targets
    contradiction
  have performs := Stmt.lowerAll_performs paired body structured.statements suits none_enclosing 0
    stands.left
  refine performs.bind fun ending target ends => ?_
  cases ending with
  | next =>
    obtain rfl := ends
    rcases shape with rfl | rfl
    · have get : (body.lower returns k).1[0 + (Stmt.lowerAll body k).1.length]? = none := by
        simp [equal]
      exact .pure (.inr ⟨rfl, _, rfl, get⟩) fun _ _ alike => alike
    · exact paired.matches_of_follows stands.right (.pure (.inl rfl) fun _ _ alike => alike)
  | jump l =>
    obtain ⟨⟨_, member, _⟩, _⟩ := ends
    contradiction
  | ret value => exact .pure (.inl ends) fun _ _ alike => alike

theorem Body.definitions_lower_nodup {body : Body} {next k : Nat} (returns : Ty)
    (structured : body.IsStructured next) (le : next ≤ k) :
    (definitions (body.lower returns k).1).Nodup := by
  rw [lower_apply, definitions_close]
  exact (Stmt.lowerAll_definesOnce body k
    (fun l member => Nat.lt_of_lt_of_le (structured.labelsBelow l member) le)
    structured.distinct).nodup

section

variable {p : Program} {next : Nat} (stepCounts : Bool) (limit : Option Nat)

theorem Program.body?_lower_of_some (next : Nat) {f : Fn} {body : Body} (found : p.body? f = some body) :
    ∃ returns k, next ≤ k ∧ (p.lower next).1.body? f = some (body.lower returns k).1 := by
  have lowered := p.body?_lower f next
  rw [found] at lowered
  exact lowered

theorem Program.body?_lower_of_none {f : Fn} (missing : p.body? f = none) :
    (p.lower next).1.body? f = none := by
  have lowered := p.body?_lower f next
  rw [missing] at lowered
  exact lowered

/-- A call of a function does in the lowered program what it does in the structured one, if
the body of the function does. -/
theorem Program.calls_follow {n : Nat}
    (bodies : ∀ f body returns k, p.MayCall f → p.body? f = some body → next ≤ k →
      ∀ c : SideBySide, c.next = next → c.comparesLast = stepCounts → ∀ held,
        (∀ b ∈ held, b.1.isGlobal = true) →
          FollowsAlike c held Eq n (p.runStructured stepCounts limit n body)
            (fun m => (p.lower next).1.runFrom limit m (body.lower returns k).1 0)) :
    CallsFollow p.MayCall next stepCounts n (p.invoke limit (p.runStructured stepCounts limit n))
      ((p.lower next).1.callee limit) := by
  intro f mayCall c sameNext sameCompare held args
  unfold Program.callee Program.invoke
  refine Run.get_follows.bind fun s t alike => ?_
  rw [← alike.reached? limit]
  cases s.reached? limit with
  | some _ => exact .fault _ fun _ _ alike => alike.outside
  | none =>
    cases found : p.body? f with
    | none =>
      simp only [Program.body?_lower_of_none found]
      exact .defect _ fun _ _ alike => alike.outside
    | some body =>
      obtain ⟨returns, k, le, lowered⟩ := Program.body?_lower_of_some next found
      simp only [lowered]
      intro s t alike
      exact Follows.inFrame
        (bodies f body returns k mayCall found le (c.callees s t alike.depth) sameNext sameCompare
          held.globals fun b member => (List.mem_filter.1 member).2)
        (alike.push _) (fun _ _ _ inside => alike.pop inside)
        (fun _ _ outside => ⟨outside.globals, outside.host⟩) s t ⟨rfl, rfl⟩

theorem Program.body_follows (structured : p.IsStructured next) (n : Nat) {body : Body}
    {returns : Ty} {k : Nat} {c : SideBySide} {held : Held} (bodyStructured : body.IsStructured next)
    (sameNext : c.next = next) (sameCompare : c.comparesLast = stepCounts)
    (suits : Suits c p.MayCall held (Stmt.varsOf body) (Stmt.callsOf body)
      (Stmt.loopVarsOf body) k) :
    FollowsAlike c held Eq n (p.runStructured stepCounts limit n body)
      (fun m => (p.lower next).1.runFrom limit m (body.lower returns k).1 0) := by
  induction n generalizing body returns k c held with
  | zero =>
    intro s t _ m none
    obtain rfl := Nat.le_zero.1 none
    exact ⟨t, rfl⟩
  | succ n ih =>
    intro s t alike
    have paired : Paired (p.lower next).1 limit (body.lower returns k).1 p.MayCall c
        { invoke := p.invoke limit (p.runStructured stepCounts limit n), isEntry := s.inEntry,
          stepCounts, fuel := n + 1 } n := by
      refine ⟨?_, alike.inEntry.trans alike.inEntry_eq, sameCompare.symm, rfl, ?_⟩
      · rw [sameNext, sameCompare]
        refine Program.calls_follow stepCounts limit fun f callee returns j mayCall found le c' same
          compare held' allGlobal => ?_
        have calleeStructured := structured.bodies f callee found
        refine ih calleeStructured same compare ⟨?_, fun g calls => .step mayCall found calls, ?_, ?_⟩
        · rw [same]
          exact calleeStructured.varsBelow
        · rw [same]
          exact le
        · exact fun b member => .inr ⟨allGlobal b member, structured.localLoops f callee mayCall found⟩
      · exact Body.definitions_lower_nodup returns bodyStructured (sameNext ▸ suits.fresh)
    exact (Body.lower_matches paired (sameNext ▸ bodyStructured) suits).run s t alike

/-- The program runs beside the lowered one, each of them with one active call. -/
theorem Program.execute_follows (structured : p.IsStructured next) (n : Nat) (start : State)
    (noCalls : start.frames = []) :
    let c : SideBySide := ⟨next, [], [], rfl, stepCounts⟩
    Follows (fun s t => s = start ∧ t = start) (fun _ => AlikeOutside c) (AlikeOutside c)
      (fun a b => stepCounts = true → a = b) n
      (p.executeWith (p.runStructured stepCounts limit n))
      (fun m => (p.lower next).1.execute limit m) := by
  intro c
  have outside : ∀ s t, s = start ∧ t = start → AlikeOutside c s t := by
    rintro s t ⟨rfl, rfl⟩
    exact ⟨fun _ _ => rfl, rfl⟩
  have same : (p.lower next).1.diagnostics = p.diagnostics ∧ (p.lower next).1.entry = p.entry :=
    ⟨rfl, rfl⟩
  unfold Program.execute Program.executeWith
  rw [same.1, same.2]
  split
  · exact .fault _ outside
  · cases entry : p.entry with
    | none => exact .pure (fun _ => rfl) outside
    | some f =>
      dsimp only
      cases found : p.body? f with
      | none =>
        simp only [Program.body?_lower_of_none found]
        exact .defect _ outside
      | some body =>
        obtain ⟨returns, k, le, lowered⟩ := Program.body?_lower_of_some next found
        simp only [lowered]
        have bodyStructured := structured.bodies f body found
        have suits : Suits c p.MayCall [] (Stmt.varsOf body) (Stmt.callsOf body)
            (Stmt.loopVarsOf body) k :=
          ⟨bodyStructured.varsBelow, fun g calls => .entry entry found calls, le, by simp⟩
        have inside : Alike c [] { start with frames := .empty :: start.frames }
            { start with frames := .empty :: start.frames } :=
          ⟨⟨.empty, .empty, by rw [noCalls], by rw [noCalls], fun _ _ => rfl⟩, fun _ _ => rfl, rfl,
            fun _ => rfl, by simp, by simp⟩
        have runs : Follows (fun s t => s = start ∧ t = start)
            (fun _ s t => AlikeOutside c s t ∧ (stepCounts = true → s.last = t.last))
            (AlikeOutside c) Eq n
            (Run.inFrame .empty (p.runStructured stepCounts limit n body))
            (fun m => Run.inFrame .empty
              ((p.lower next).1.runFrom limit m (body.lower returns k).1 0)) :=
          .inFrame
            (Program.body_follows stepCounts limit structured n bodyStructured rfl rfl suits) inside
            (fun _ _ _ alike => ⟨⟨alike.globals, alike.host⟩, alike.last⟩)
            fun _ _ outside => ⟨outside.globals, outside.host⟩
        refine runs.bind ?_
        rintro value _ rfl s t ⟨outside, last⟩
        exact ⟨_, t, fun compared => by rw [last compared], outside, .of_const rfl⟩

end

/-- Two runs ended alike: they agree on the globals below `next`, on input and output, and
on the fault, or on the value if that is compared. -/
structure Outcome.Agrees (next : Nat) (compared : Bool) (first second : Outcome) : Prop where
  result : match first.result, second.result with
    | .ok value, .ok value' => compared = true → value = value'
    | .error stop, .error stop' => stop = stop'
    | _, _ => False
  globals : AgreeBelow next first.globals second.globals
  host : first.host = second.host

def Outcome.Ended (o : Outcome) : Prop := o.result ≠ .error .outOfFuel

theorem Run.ended_outcome {x : Run (Option Value)} {globals : Store} {host : Host} :
    (x.outcome globals host).Ended ↔
      ¬Starved (x { globals, frames := [], host, last := none }) := by
  unfold Outcome.Ended outcome
  cases x { globals, frames := [], host, last := none } with
  | ok value s => simp
  | error stop s => cases stop <;> simp

/-- A run that ends beside a run with fuel settles what the other one leaves. -/
theorem Follows.agrees {c : SideBySide} {compared : Bool} {n : Nat} {x : Run (Option Value)}
    {y : Nat → Run (Option Value)} {globals : Store} {host : Host} {start : State}
    (follows : Follows (fun s t => s = start ∧ t = start) (fun _ => AlikeOutside c)
      (AlikeOutside c) (fun a b => compared = true → a = b) n x y)
    (isStart : start = { globals, frames := [], host, last := none })
    (ended : (x.outcome globals host).Ended) :
    ∃ answer, Settles y start answer ∧ ∀ m, y m start = answer →
      (x.outcome globals host).Agrees c.next compared ((y m).outcome globals host) := by
  have head := follows start start ⟨rfl, rfl⟩
  rw [Run.ended_outcome, ← isStart] at ended
  subst isStart
  unfold Run.outcome
  cases given : x { globals, frames := [], host, last := none } with
  | ok value s =>
    simp only [given] at head
    obtain ⟨value', t, same, outside, settles⟩ := head
    refine ⟨_, settles, fun m equal => ?_⟩
    rw [equal]
    exact ⟨same, outside.globals, outside.host⟩
  | error stop s =>
    cases stop with
    | fault f =>
      simp only [given] at head
      obtain ⟨t, outside, settles⟩ := head
      refine ⟨_, settles, fun m equal => ?_⟩
      rw [equal]
      exact ⟨rfl, outside.globals, outside.host⟩
    | outOfFuel => exact absurd ⟨s, given⟩ ended

/-- A structured program and its flat code do the same, from any globals and any host:
one of them ends if the other does, and they end alike. The flat code may need more fuel.
Their values are the same if the step of a `for` loop counts as an expression that stood
alone. -/
theorem Program.lower_preserves_meaning (p : Program) (next : Nat)
    (structured : p.IsStructured next) (stepCounts : Bool) (limit : Option Nat) (globals : Store)
    (host : Host) :
    (∀ n, (p.evaluateStructured stepCounts limit n globals host).Ended →
      ∃ enough, ∀ m, enough ≤ m →
        (p.evaluateStructured stepCounts limit n globals host).Agrees next stepCounts
          ((p.lower next).1.evaluate limit m globals host)) ∧
    (∀ m, ((p.lower next).1.evaluate limit m globals host).Ended →
      (p.evaluateStructured stepCounts limit m globals host).Agrees next stepCounts
        ((p.lower next).1.evaluate limit m globals host)) := by
  let start : State := { globals, frames := [], host, last := none }
  have follows (n : Nat) := Program.execute_follows stepCounts limit structured n start rfl
  constructor
  · intro n ended
    obtain ⟨answer, settles, agrees⟩ := (follows n).agrees rfl ended
    obtain ⟨enough, same⟩ := settles.enough
    exact ⟨enough, fun m bound => agrees m (same m bound)⟩
  · intro m ended
    have fed := Run.ended_outcome.1 ended
    have ended' : (p.evaluateStructured stepCounts limit m globals host).Ended := by
      refine Run.ended_outcome.2 ?_
      rintro ⟨s, starved⟩
      have head := follows m start start ⟨rfl, rfl⟩
      rw [show p.executeWith (p.runStructured stepCounts limit m) start = _ from starved] at head
      exact fed (head m (Nat.le_refl m))
    obtain ⟨answer, settles, agrees⟩ := (follows m).agrees rfl ended'
    exact agrees m (settles.eq_of_not_starved fed)

namespace SkippingSum

def total : Var := ⟨0, "total", .int, .globalVar, .mutable⟩
def counter : Var := ⟨1, "i", .int, .globalVar, .readOnly none⟩
def argument : Var := ⟨2, "n", .int, .parameter 0, .readOnly none⟩
def twice : Fn := ⟨3, "twice", [argument], .int, some 0, none⟩
def main : Fn := ⟨4, "main", [], .void, none, none⟩
def labels : LoopLabels := ⟨⟨5, "break"⟩, ⟨6, "continue"⟩⟩

def twiceBody : Body := [.ret (some (.binary (.var argument) .intAddition (.var argument)))]

def mainBody : Body := [
  .declare total (.literal (.int 0)),
  .forIn counter (.range (.literal (.int 1)) (.literal (.int 3))) (.block [
    .ifThen (.binary (.var counter) .intEquals (.literal (.int 2)))
      (.block [.goto labels.onContinue]),
    .expr (.assign total
      (.binary (.var total) .intAddition (.call twice [.var counter])))]) labels,
  .expr (.var total)]

def program : Program := ⟨.empty, some main, [(twice, twiceBody), (main, mainBody)], []⟩

theorem body?_eq_some {f : Fn} {body : Body} (found : program.body? f = some body) :
    (f.id = 3 ∧ body = twiceBody) ∨ (f.id = 4 ∧ body = mainBody) := by
  simp only [program, Program.body?, List.findSome?, Bodies.body?_cons, twice, main] at found
  by_cases isTwice : 3 = f.id
  · simp_all
  · by_cases isMain : 4 = f.id
    · simp_all
    · simp [isTwice, isMain, Bodies.body?] at found

theorem id_of_mayCall {f : Fn} (mayCall : program.MayCall f) : f.id = 3 := by
  induction mayCall with
  | entry entry found called =>
    obtain rfl := Option.some.inj entry
    rcases body?_eq_some found with ⟨isTwice, _⟩ | ⟨_, rfl⟩
    · exact absurd isTwice (by decide)
    · simp [mainBody, Stmt.callsOf, Stmt.calls, Expr.calls, Expr.callsOf] at called
      simp [called, twice]
  | step _ found called isTwice =>
    rcases body?_eq_some found with ⟨_, rfl⟩ | ⟨isMain, _⟩
    · simp [twiceBody, Stmt.callsOf, Stmt.calls, Expr.calls] at called
    · omega

theorem isStructured : program.IsStructured 7 := by
  constructor
  · intro f body found
    rcases body?_eq_some found with ⟨_, rfl⟩ | ⟨_, rfl⟩
    · exact ⟨⟨trivial, trivial⟩, by decide, by decide, by decide⟩
    · refine ⟨?_, by decide, by decide, by decide⟩
      simp [mainBody, Stmt.AllStructured, Stmt.IsStructured, Label.Targets, Var.constant, counter]
  · intro f body mayCall found
    rcases body?_eq_some found with ⟨_, rfl⟩ | ⟨isMain, _⟩
    · exact fun v member => absurd member List.not_mem_nil
    · exact absurd (isMain.symm.trans (id_of_mayCall mayCall)) (by decide)

end SkippingSum

theorem skippingSum_lowered :
    SkippingSum.program.IsStructured 7 ∧
    (SkippingSum.program.evaluateStructured true none 4 .empty .empty).result =
      .ok (some (.int 8)) ∧
    ∃ enough, ∀ m, enough ≤ m →
      (SkippingSum.program.evaluateStructured true none 4 .empty .empty).Agrees 7 true
        ((SkippingSum.program.lower 7).1.evaluate none m .empty .empty) := by
  have value : (SkippingSum.program.evaluateStructured true none 4 .empty .empty).result =
      .ok (some (.int 8)) := rfl
  have ended : (SkippingSum.program.evaluateStructured true none 4 .empty .empty).Ended := by
    rw [Outcome.Ended, value]
    exact nofun
  exact ⟨SkippingSum.isStructured, value, (Program.lower_preserves_meaning SkippingSum.program 7
    SkippingSum.isStructured true none .empty .empty).1 4 ended⟩

end ScriptLang
