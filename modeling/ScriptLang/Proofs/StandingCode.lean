import ScriptLang.Proofs.BoundChains

/-! Flat code has the expressions that stand alone in the source, and the steps of `for` loops.
Lowering makes no others. -/

namespace ScriptLang

namespace Stmt

mutual

/-- The expressions that stand alone in a structured statement, in order. -/
def standing : Stmt → List Expr
  | block body => standingOf body
  | ifThen _ t => t.standing
  | ifElse _ t e => t.standing ++ e.standing
  | whileDo _ body _ | doWhile body _ _ | forIn _ _ body _ => body.standing
  | expr e => [e]
  | declare _ _ | label _ | goto _ | gotoIf _ _ _ | ret _ => []

def standingOf : List Stmt → List Expr
  | [] => []
  | s :: ss => s.standing ++ standingOf ss

end

end Stmt

def StandsOnly (P : Expr → Prop) (code : List Stmt) : Prop := ∀ e, .expr e ∈ code → P e

theorem standsOnly_iff {P : Expr → Prop} {code : List Stmt} :
    StandsOnly P code ↔ ∀ s ∈ code, ∀ e, s = .expr e → P e :=
  ⟨fun only _ member e same => only e (same ▸ member), fun all e member => all _ member e rfl⟩

namespace Stmt

theorem standing_jumps (P : Expr → Prop) : OfJumps fun s => ∀ e, s = .expr e → P e :=
  ⟨fun _ => nofun, fun _ => nofun⟩

mutual

theorem emits_standing {P : Expr → Prop} (s : Stmt) (low : Nat) (own : ∀ e ∈ s.standing, P e)
    (steps : ∀ v ∈ s.loopVars, P (Expr.increment v)) :
    s.EmitsOnly (fun t => ∀ e, t = .expr e → P e) low := by
  have tests (c : Expr) : OfTests (fun t => ∀ e, t = .expr e → P e) c := fun _ _ => nofun
  cases s with
  | block body => exact allEmit_standing body low own steps
  | ifThen c t => exact ⟨tests c, emits_standing t low own steps⟩
  | ifElse c t e =>
    obtain ⟨ownT, ownE⟩ := List.forall_mem_append.1 own
    obtain ⟨stepsT, stepsE⟩ := List.forall_mem_append.1 steps
    exact ⟨tests c, emits_standing t low ownT stepsT, emits_standing e low ownE stepsE⟩
  | whileDo c body labels | doWhile body c labels =>
    exact ⟨tests c, emits_standing body low own steps⟩
  | forIn v range body labels =>
    obtain ⟨step, steps⟩ := List.forall_mem_cons.1 steps
    refine ⟨fun n _ => ⟨nofun, nofun, tests _, tests _, ?_⟩, emits_standing body low own steps⟩
    rintro e ⟨rfl⟩
    exact step
  | gotoIf l c value => exact tests c
  | label _ | goto _ => trivial
  | expr e =>
    rintro e ⟨rfl⟩
    exact List.forall_mem_singleton.1 own
  | declare _ _ | ret _ => exact nofun

theorem allEmit_standing {P : Expr → Prop} (ss : List Stmt) (low : Nat)
    (own : ∀ e ∈ standingOf ss, P e) (steps : ∀ v ∈ loopVarsOf ss, P (Expr.increment v)) :
    AllEmitOnly (fun t => ∀ e, t = .expr e → P e) low ss := by
  cases ss with
  | nil => trivial
  | cons s ss =>
    obtain ⟨ownS, ownSs⟩ := List.forall_mem_append.1 own
    obtain ⟨stepsS, stepsSs⟩ := List.forall_mem_append.1 steps
    exact ⟨emits_standing s low ownS stepsS, allEmit_standing ss low ownSs stepsSs⟩

end

end Stmt

/-- The value of the expression counts as one of the bound body: the expression stands alone there,
or it is the step of a loop. -/
def Body.Counts (body : Body) (e : Expr) : Prop :=
  e ∈ Stmt.standingOf body ∨ ∃ v ∈ Stmt.loopVarsOf body, e = Expr.increment v

theorem Body.lower_standsOnly (body : Body) (t : Ty) (n : Nat) :
    StandsOnly body.Counts (body.lower t n).1 := by
  have emits := Stmt.allEmit_standing (P := body.Counts) body n (fun e => .inl)
    fun v member => .inr ⟨v, member, rfl⟩
  exact standsOnly_iff.2 (body.forall_mem_lower (Stmt.standing_jumps _) nofun t n emits)

/-- A function with its bound body, and with the flat body that it is compiled to: what stands
alone there comes from the bound body. -/
structure StandsAs (p q : Fn × Body) : Prop where
  same : q.1 = p.1
  stands : StandsOnly p.2.Counts q.2

namespace Compilation

theorem lowerBodies_standsAs {options : Options} {file : Option String} {u : Source.Unit}
    (bound : List (Fn × Body)) (n : Nat) :
    List.Forall₂ StandsAs bound (lowerBodies options file u bound n).1.1 := by
  refine (lowerBodies_lowers bound n).imp fun p q lowers => ⟨lowers.same, standsOnly_iff.2 ?_⟩
  exact lowers.forall_mem fun n => standsOnly_iff.1 (p.2.lower_standsOnly p.1.returns n)

/-- Units in a row are compiled from what they are bound to. -/
theorem compileAll_standsAs {options : Options} (us : List Source.Unit)
    {history : List Declarations} {earlier : List Bodies} {next : Nat} :
    List.Forall₂ (fun b c => List.Forall₂ StandsAs b.bodies c.program.bodies)
      (boundAll options history earlier us next)
      (compileAll options history earlier us next).1 := by
  induction us generalizing history earlier next with
  | nil => exact .nil
  | cons u us ih => exact .cons (lowerBodies_standsAs _ _) ih

end Compilation

end ScriptLang
