import ScriptLang.Proofs.Activations
import ScriptLang.Proofs.BoundChains
import ScriptLang.Proofs.CompiledLabels

/-! Code that was compiled without errors writes a read-only variable only where it is declared,
and in the step of its loop if it belongs to one. -/

namespace ScriptLang

def writers (v : Var) (code : List Stmt) : List Stmt := code.filter fun s => v ∈ s.written

@[simp] theorem writers_nil (v : Var) : writers v [] = [] := rfl

@[simp] theorem writers_append (v : Var) (a b : List Stmt) :
    writers v (a ++ b) = writers v a ++ writers v b := List.filter_append ..

theorem writers_cons (v : Var) (s : Stmt) (code : List Stmt) :
    writers v (s :: code) = if v ∈ s.written then s :: writers v code else writers v code := by
  simp [writers, List.filter_cons]

namespace Stmt

mutual

/-- The flat statements that write a read-only variable for a structured statement: those of
its declaration, or those at the entry and in the step of its loop. -/
def setters (v : Var) : Stmt → List Stmt
  | block body => settersOf v body
  | declare w e => if w = v then [declare w e] else []
  | ifThen _ t => t.setters v
  | ifElse _ t e => t.setters v ++ e.setters v
  | whileDo _ body _ | doWhile body _ _ => body.setters v
  | forIn w range body _ =>
    (if w = v then [declare w range.bounds.1] else []) ++ body.setters v ++
      if w = v then [expr (Expr.increment w)] else []
  | label _ | goto _ | gotoIf _ _ _ | ret _ | expr _ => []

def settersOf (v : Var) : List Stmt → List Stmt
  | [] => []
  | s :: ss => s.setters v ++ settersOf v ss

end

end Stmt

section

variable {v : Var} {c : Expr} {code : List Stmt}

theorem Expr.WellTyped.not_assigned {e : Expr} (typed : e.WellTyped Var.Assignable)
    (readOnly : v.readOnly = true) : v ∉ e.assigned := by
  intro member
  have assignable : v.readOnly = false := typed.assigned v member
  simp [readOnly] at assignable

theorem writers_jumpIf (spared : v ∉ c.assigned) (l : Label) (value : Bool) :
    writers v (jumpIf l c value) = [] := by
  have gotoIf : v ∉ (Stmt.gotoIf l c value).written := spared
  have goto : v ∉ (Stmt.goto l).written := List.not_mem_nil
  unfold jumpIf
  split
  · split
    · rw [writers_cons, if_neg goto, writers_nil]
    · rfl
  · rw [writers_cons, if_neg gotoIf, writers_nil]

theorem writers_loopCode (spared : v ∉ c.assigned) (l : Label) (labels : LoopLabels) :
    writers v (loopCode l labels c code) = writers v code := by
  simp [loopCode, writers_cons, writers_jumpIf spared, Stmt.written, Stmt.assigned]

theorem writers_stepCode (w upper : Var) (labels : LoopLabels) :
    writers v (stepCode w upper labels) =
      if w = v then [.expr (Expr.increment w)] else [] := by
  have test : v ∉ (Expr.binary (.var w) .intEquals (.var upper)).assigned := List.not_mem_nil
  simp [stepCode, writers_cons, writers_jumpIf test, Stmt.written, Stmt.assigned, Expr.assigned,
    Expr.increment, eq_comm]

end

namespace Stmt

mutual

/-- Lowering leaves a read-only variable with the writes of its declaration or its loop. The
variable must not be one of those that lowering makes. -/
theorem writers_lower {returns : Option Ty} {v : Var} (readOnly : v.readOnly = true) (s : Stmt)
    (n : Nat) (typed : s.WellTyped Var.Assignable returns)
    (other : v.id < n ∨ (s.lower n).2 ≤ v.id) : writers v (s.lower n).1 = s.setters v := by
  cases s with
  | block body => exact writers_lowerAll readOnly body n typed other
  | declare w e =>
    have spared := typed.2.wellTyped.not_assigned readOnly
    show writers v [declare w e] = if w = v then [declare w e] else []
    simp [writers_cons, written, spared, eq_comm]
  | ifThen c t =>
    have test := writers_jumpIf (typed.1.wellTyped.not_assigned readOnly) ⟨n, "end"⟩ false
    rw [lower_ifThen] at other ⊢
    have inner := writers_lower readOnly t (n + 1) typed.2 (by omega)
    simp [writers_cons, test, inner, written, assigned, setters]
  | ifElse c t e =>
    have test := writers_jumpIf (typed.1.wellTyped.not_assigned readOnly) ⟨n + 1, "else"⟩ false
    rw [lower_ifElse] at other ⊢
    have le := le_lower t (n + 2)
    have le' := le_lower e (t.lower (n + 2)).2
    have first := writers_lower readOnly t (n + 2) typed.2.1 (by omega)
    have second := writers_lower readOnly e (t.lower (n + 2)).2 typed.2.2 (by omega)
    simp [writers_cons, test, first, second, written, assigned, setters]
  | whileDo c body labels =>
    rw [lower_whileDo] at other ⊢
    have inner := writers_lower readOnly body (n + 1) typed.2 (by omega)
    simp [writers_loopCode (typed.1.wellTyped.not_assigned readOnly), inner, setters]
  | doWhile body c labels =>
    have test := writers_jumpIf (typed.1.wellTyped.not_assigned readOnly) ⟨n, "body"⟩ true
    rw [lower_doWhile] at other ⊢
    have inner := writers_lower readOnly body (n + 1) typed.2 (by omega)
    simp [writers_cons, test, inner, written, assigned, setters]
  | forIn w range body labels =>
    obtain ⟨_, ⟨lower, upper, rfl, fits, fits'⟩, typedB⟩ := typed
    rw [lower_forIn] at other ⊢
    have le := le_lower body (n + 3)
    have inner := writers_lower readOnly body (n + 3) typedB (by omega)
    have sparedLower := fits.wellTyped.not_assigned readOnly
    have sparedUpper := fits'.wellTyped.not_assigned readOnly
    have test : v ∉ (Expr.binary (.var w) .intLessOrEquals (.var (upperBound w n))).assigned :=
      List.not_mem_nil
    have notHidden : v ≠ upperBound w n := by
      rintro rfl
      simp only [upperBound] at other
      omega
    have first : writers v [declare w lower, declare (upperBound w n) upper] =
        if w = v then [declare w lower] else [] := by
      simp [writers_cons, written, sparedLower, sparedUpper, notHidden, eq_comm]
    rw [writers_append, writers_loopCode test, writers_append, writers_stepCode, inner]
    show writers v [declare w lower, declare (upperBound w n) upper] ++ _ = _
    rw [first, ← List.append_assoc]
    rfl
  | gotoIf l c value => exact writers_jumpIf (typed.wellTyped.not_assigned readOnly) l value
  | ret value =>
    show writers v [ret value] = []
    cases value with
    | none => simp [writers_cons, written, assigned]
    | some e =>
      obtain ⟨_, _, fits⟩ := typed
      have spared := fits.wellTyped.not_assigned readOnly
      simp [writers_cons, written, assigned, spared]
  | expr e =>
    have wellTyped : e.WellTyped Var.Assignable := typed
    have spared := wellTyped.not_assigned readOnly
    show writers v [expr e] = []
    simp [writers_cons, written, assigned, spared]
  | label l | goto l =>
    show writers v [_] = []
    simp [writers_cons, written, assigned]

theorem writers_lowerAll {returns : Option Ty} {v : Var} (readOnly : v.readOnly = true)
    (ss : List Stmt) (n : Nat) (typed : AllWellTyped Var.Assignable returns ss)
    (other : v.id < n ∨ (lowerAll ss n).2 ≤ v.id) :
    writers v (lowerAll ss n).1 = settersOf v ss := by
  cases ss with
  | nil => rfl
  | cons s ss =>
    rw [lowerAll_cons] at other ⊢
    have le := le_lower s n
    have le' := le_lowerAll ss (s.lower n).2
    have first := writers_lower readOnly s n typed.1 (by omega)
    have rest := writers_lowerAll readOnly ss (s.lower n).2 typed.2 (by omega)
    rw [writers_append, first, rest]
    rfl

end

end Stmt

/-- The statements that write a variable for statements which bring along these variables: none
for a variable that is not among them, and one declaration or one loop for one that is. -/
structure SetBy (v : Var) (introduced declared loopVars : List Var) (setters : List Stmt) :
    Prop where
  others : v ∉ introduced → setters = []
  declared : v ∈ declared → ∃ e, setters = [.declare v e]
  loop : v ∈ loopVars → ∃ e, setters = [.declare v e, .expr (Expr.increment v)]

theorem SetBy.none (v : Var) : SetBy v [] [] [] [] :=
  ⟨fun _ => rfl, fun member => absurd member List.not_mem_nil,
    fun member => absurd member List.not_mem_nil⟩

/-- Statements that bring along different variables are put together. -/
theorem SetBy.append {v : Var} {introduced introduced' declared declared' loopVars loopVars' : List Var}
    {setters setters' : List Stmt} (first : SetBy v introduced declared loopVars setters)
    (second : SetBy v introduced' declared' loopVars' setters')
    (nodup : (introduced ++ introduced').Nodup) (declares : declared ⊆ introduced)
    (declares' : declared' ⊆ introduced') (loops : loopVars ⊆ introduced)
    (loops' : loopVars' ⊆ introduced') :
    SetBy v (introduced ++ introduced') (declared ++ declared') (loopVars ++ loopVars')
      (setters ++ setters') := by
  obtain ⟨_, _, apart⟩ := List.nodup_append.1 nodup
  have notSecond (member : v ∈ introduced) : setters' = [] :=
    second.others fun member' => apart v member v member' rfl
  have notFirst (member : v ∈ introduced') : setters = [] :=
    first.others fun member' => apart v member' v member rfl
  refine ⟨fun notIn => ?_, fun member => ?_, fun member => ?_⟩
  · rw [List.mem_append, not_or] at notIn
    rw [first.others notIn.1, second.others notIn.2, List.append_nil]
  · rcases List.mem_append.1 member with member | member
    · rw [notSecond (declares member), List.append_nil]
      exact first.declared member
    · rw [notFirst (declares' member), List.nil_append]
      exact second.declared member
  · rcases List.mem_append.1 member with member | member
    · rw [notSecond (loops member), List.append_nil]
      exact first.loop member
    · rw [notFirst (loops' member), List.nil_append]
      exact second.loop member

namespace Stmt

mutual

theorem setters_setBy (v : Var) (s : Stmt) (nodup : s.introduced.Nodup) :
    SetBy v s.introduced s.declared s.loopVars (s.setters v) := by
  cases s with
  | block body => exact settersOf_setBy v body nodup
  | declare w e =>
    show SetBy v [w] [w] [] (if w = v then [declare w e] else [])
    refine ⟨fun notIn => ?_, fun member => ?_, fun member => absurd member List.not_mem_nil⟩
    · exact if_neg fun same => notIn (List.mem_singleton.2 same.symm)
    · obtain rfl := List.mem_singleton.1 member
      exact ⟨e, if_pos rfl⟩
  | ifThen c t => exact setters_setBy v t nodup
  | ifElse c t e =>
    obtain ⟨first, second, _⟩ := List.nodup_append.1 nodup
    exact (setters_setBy v t first).append (setters_setBy v e second) nodup
      t.declared_subset_introduced e.declared_subset_introduced t.loopVars_subset_introduced
      e.loopVars_subset_introduced
  | whileDo c body labels => exact setters_setBy v body nodup
  | doWhile body c labels => exact setters_setBy v body nodup
  | forIn w range body labels =>
    obtain ⟨new, nodup⟩ := List.nodup_cons.1 nodup
    have inner := setters_setBy v body nodup
    show SetBy v (w :: body.introduced) body.declared (w :: body.loopVars)
      ((if w = v then [declare w range.bounds.1] else []) ++ body.setters v ++
        if w = v then [expr (Expr.increment w)] else [])
    by_cases same : w = v
    · subst same
      rw [if_pos rfl, if_pos rfl, inner.others new]
      refine ⟨fun notIn => absurd List.mem_cons_self notIn, fun member => ?_, fun _ => ⟨_, rfl⟩⟩
      exact absurd (body.declared_subset_introduced member) new
    · rw [if_neg same, if_neg same, List.nil_append, List.append_nil]
      refine ⟨fun notIn => inner.others fun member => notIn (List.mem_cons_of_mem w member),
        inner.declared, fun member => inner.loop ?_⟩
      exact (List.mem_cons.1 member).resolve_left fun equal => same equal.symm
  | label _ | goto _ | gotoIf _ _ _ | ret _ | expr _ => exact .none v

theorem settersOf_setBy (v : Var) (ss : List Stmt) (nodup : (introducedOf ss).Nodup) :
    SetBy v (introducedOf ss) (declaredOf ss) (loopVarsOf ss) (settersOf v ss) := by
  cases ss with
  | nil => exact .none v
  | cons s ss =>
    obtain ⟨first, second, _⟩ := List.nodup_append.1 nodup
    exact (setters_setBy v s first).append (settersOf_setBy v ss second) nodup
      s.declared_subset_introduced (declaredOf_subset_introducedOf ss)
      s.loopVars_subset_introduced (loopVarsOf_subset_introducedOf ss)

end

end Stmt

def CallsOnly (P : Fn → Prop) (code : List Stmt) : Prop := ∀ s ∈ code, ∀ f ∈ s.calls, P f

namespace Stmt

theorem calls_jumps (P : Fn → Prop) : OfJumps fun s => ∀ f ∈ s.calls, P f :=
  ⟨fun _ => List.forall_mem_nil _, fun _ => List.forall_mem_nil _⟩

mutual

theorem emits_calls {P : Fn → Prop} (s : Stmt) (low : Nat) (calls : ∀ f ∈ s.calls, P f) :
    s.EmitsOnly (fun t => ∀ f ∈ t.calls, P f) low := by
  cases s with
  | block body => exact allEmit_calls body low calls
  | ifThen c t =>
    obtain ⟨callsC, callsT⟩ := List.forall_mem_append.1 calls
    exact ⟨fun _ _ => callsC, emits_calls t low callsT⟩
  | ifElse c t e =>
    obtain ⟨callsCT, callsE⟩ := List.forall_mem_append.1 calls
    obtain ⟨callsC, callsT⟩ := List.forall_mem_append.1 callsCT
    exact ⟨fun _ _ => callsC, emits_calls t low callsT, emits_calls e low callsE⟩
  | whileDo c body labels | doWhile body c labels =>
    obtain ⟨callsC, callsB⟩ := List.forall_mem_append.1 calls
    exact ⟨fun _ _ => callsC, emits_calls body low callsB⟩
  | forIn v range body labels =>
    obtain ⟨callsR, callsB⟩ := List.forall_mem_append.1 calls
    obtain ⟨lower, upper⟩ := Expr.forall_mem_calls_bounds callsR
    refine ⟨fun n _ => ⟨lower, upper, ?_, ?_, ?_⟩, emits_calls body low callsB⟩
    · exact fun _ _ => List.forall_mem_nil _
    · exact fun _ _ => List.forall_mem_nil _
    · exact List.forall_mem_nil _
  | gotoIf l c value => exact fun _ _ => calls
  | label _ | goto _ => trivial
  | declare _ _ | ret _ | expr _ => exact calls

theorem allEmit_calls {P : Fn → Prop} (ss : List Stmt) (low : Nat) (calls : ∀ f ∈ callsOf ss, P f) :
    AllEmitOnly (fun t => ∀ f ∈ t.calls, P f) low ss := by
  cases ss with
  | nil => trivial
  | cons s ss =>
    obtain ⟨callsS, callsSs⟩ := List.forall_mem_append.1 calls
    exact ⟨emits_calls s low callsS, allEmit_calls ss low callsSs⟩

end

theorem lower_callsOnly {P : Fn → Prop} (s : Stmt) (n : Nat) (calls : ∀ f ∈ s.calls, P f) :
    CallsOnly P (s.lower n).1 :=
  forall_mem_lower (calls_jumps P) s n (Nat.le_refl n) (emits_calls s n calls)

end Stmt

structure CompilesTo (v : Var) (p q : Fn × Body) : Prop where
  same : q.1 = p.1
  writes : (writers v q.2).Sublist (Stmt.settersOf v p.2)
  calls : CallsOnly (· ∈ Stmt.callsOf p.2) q.2

theorem Body.lower_writers {returns : Option Ty} {v : Var} (readOnly : v.readOnly = true)
    {body : Body} (typed : Stmt.AllWellTyped Var.Assignable returns body) (t : Ty) (n : Nat)
    (other : v.id < n ∨ (body.lower t n).2 ≤ v.id) :
    writers v (body.lower t n).1 = Stmt.settersOf v body := by
  have lowered := Stmt.writers_lowerAll readOnly body n typed other
  show writers v (Body.close t (Stmt.lowerAll body n).1) = _
  unfold Body.close
  split
  · rw [writers_append, lowered]
    simp [writers_cons, Stmt.written, Stmt.assigned]
  · exact lowered

theorem Body.lower_callsOnly {P : Fn → Prop} {body : Body} (calls : ∀ f ∈ Stmt.callsOf body, P f)
    (t : Ty) (n : Nat) : CallsOnly P (body.lower t n).1 :=
  body.forall_mem_lower (Stmt.calls_jumps P) (List.forall_mem_nil _) t n
    (Stmt.allEmit_calls body n calls)

namespace Compilation

theorem lowerBodies_compiles {options : Options} {file : Option String} {u : Source.Unit} {v : Var}
    (readOnly : v.readOnly = true) {bound : List (Fn × Body)} {n : Nat}
    (typed : ∀ p ∈ bound, Stmt.AllWellTyped Var.Assignable p.1.resultType p.2)
    (other : v.id < n ∨ (lowerBodies options file u bound n).2 ≤ v.id) :
    List.Forall₂ (CompilesTo v) bound (lowerBodies options file u bound n).1.1 := by
  refine ((List.forall₂_and_left _ _).2 ⟨typed, lowerBodies_lowers bound n⟩).imp ?_
  rintro p q ⟨isTyped, lowers⟩
  have writes : (writers v q.2).Sublist (Stmt.settersOf v p.2) := by
    refine lowers.holds (P := fun code => (writers v code).Sublist (Stmt.settersOf v p.2))
      (fun k above below => ?_) fun code writes => ?_
    · have outside : v.id < k ∨ (p.2.lower p.1.returns k).2 ≤ v.id := by omega
      rw [Body.lower_writers readOnly isTyped p.1.returns k outside]
    · exact ((Body.removeUnreachable_sublist code).filter _).trans writes
  exact ⟨lowers.same, writes,
    lowers.forall_mem fun k => Body.lower_callsOnly (fun _ => id) p.1.returns k⟩

def UnitCompilesTo (v : Var) (b : BoundUnit) (c : Compilation) : Prop :=
  List.Forall₂ (CompilesTo v) b.bodies c.program.bodies

/-- Units in a row are compiled one by one. The read-only variable is one of theirs, or an older
one. -/
theorem compileAll_compiles {options : Options} (us : List Source.Unit)
    {history : List Declarations} {earlier : List Bodies} {next : Nat}
    (typed : ∀ d ∈ history, d.Hold Symbol.WellTyped)
    (noErrors : ∀ c ∈ (compileAll options history earlier us next).1,
      c.diagnostics.hasErrors = false) {v : Var} (readOnly : v.readOnly = true)
    (known : v.id < next ∨ ∃ b ∈ boundAll options history earlier us next,
      v ∈ Binding.ownVars b.bodies) :
    List.Forall₂ (UnitCompilesTo v) (boundAll options history earlier us next)
      (compileAll options history earlier us next).1 := by
  induction us generalizing history earlier next with
  | nil => exact .nil
  | cons u us ih =>
    obtain ⟨first, rest⟩ := List.forall_mem_cons.1 noErrors
    have minted := bindUnit_mintsVars (.nil (Nat.le_refl next)) options.scriptMode options.file
      history u
    have le := le_compileAfter options history earlier u next
    have unit := bindUnit_typed typed (compileAfter_noErrors first).1
    -- The numbers that lowering takes lie behind those of this unit and before later ones.
    have apart : (v.id < (bindUnit options.scriptMode options.file history u next).2 ∨
        (compileAfter options history earlier u next).2 ≤ v.id) ∧
        (v.id < (compileAfter options history earlier u next).2 ∨
          ∃ b ∈ boundAll options
            ((compileAfter options history earlier u next).1.declarations :: history)
            (compileAfter options history earlier u next).1.program.units us
            (compileAfter options history earlier u next).2, v ∈ Binding.ownVars b.bodies) := by
      have := minted.le
      rcases known with old | ⟨b, member, own⟩
      · omega
      · rcases List.mem_cons.1 member with rfl | later
        · have := minted.within v.id (List.mem_map_of_mem own)
          omega
        · obtain ⟨high, laterMinted⟩ := boundAll_minted options
            ((compileAfter options history earlier u next).1.declarations :: history)
            (compileAfter options history earlier u next).1.program.units us
            (.nil (Nat.le_refl (compileAfter options history earlier u next).2))
          have := laterMinted.within v.id
            (List.mem_map_of_mem (List.mem_flatMap_of_mem later own))
          exact ⟨.inr (by omega), .inr ⟨b, later, own⟩⟩
    have declared : (compileAfter options history earlier u next).1.declarations.Hold
        Symbol.WellTyped := by
      rw [compileAfter_eq]
      exact unit.declared
    have typed' := List.forall_mem_cons.2 ⟨declared, typed⟩
    refine .cons ?_ (ih typed' rest apart.2)
    exact lowerBodies_compiles readOnly (fun p within => (unit.bodies p within).1) apart.1

end Compilation

end ScriptLang
