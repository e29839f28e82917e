import ScriptLang.Proofs.BindingConstants
import ScriptLang.Proofs.ChainSafe

/-! Flat code stores for a variable that has a constant nothing but this constant: it assigns to
variables that have none, and its declarations record what is known. -/

namespace ScriptLang

/-- The variables that a flat statement assigns to, but for the one that it declares. -/
def Stmt.assigned : Stmt → List Var
  | .declare _ e | .gotoIf _ e _ | .ret (some e) | .expr e => e.assigned
  | _ => []

structure Stmt.KeepsConstants (s : Stmt) : Prop where
  assigned : ∀ v ∈ s.assigned, v.constant = none
  records : s.RecordsConstants

theorem Expr.WellTyped.spares {e : Expr} (typed : e.WellTyped Var.Assignable) :
    ∀ v ∈ e.assigned, v.constant = none :=
  fun v member => Var.constant_of_mutable (typed.assigned v member)

theorem Stmt.keepsConstants_jumps : OfJumps Stmt.KeepsConstants :=
  ⟨fun _ => ⟨List.forall_mem_nil _, trivial⟩, fun _ => ⟨List.forall_mem_nil _, trivial⟩⟩

namespace Stmt

mutual

theorem emits_keepsConstants {returns : Option Ty} (s : Stmt) (low : Nat)
    (typed : s.WellTyped Var.Assignable returns) (records : s.RecordsConstants) :
    s.EmitsOnly KeepsConstants low := by
  have tests {c : Expr} (fits : c.WellTyped Var.Assignable) : OfTests KeepsConstants c :=
    fun _ _ => ⟨fits.spares, trivial⟩
  cases s with
  | block body => exact allEmit_keepsConstants body low typed records
  | declare v e => exact ⟨typed.2.wellTyped.spares, records⟩
  | ifThen c t => exact ⟨tests typed.1.wellTyped, emits_keepsConstants t low typed.2 records⟩
  | ifElse c t e =>
    exact ⟨tests typed.1.wellTyped, emits_keepsConstants t low typed.2.1 records.1,
      emits_keepsConstants e low typed.2.2 records.2⟩
  | whileDo c body labels =>
    exact ⟨tests typed.1.wellTyped, emits_keepsConstants body low typed.2 records⟩
  | doWhile body c labels =>
    exact ⟨tests typed.1.wellTyped, emits_keepsConstants body low typed.2 records⟩
  | forIn v range body labels =>
    obtain ⟨⟨_, unknown⟩, ⟨lower, upper, rfl, fits, fits'⟩, typedB⟩ := typed
    have hasNone (w : Var) (e : Expr) (none : w.constant = none) : (declare w e).RecordsConstants :=
      fun value known => by simp [none] at known
    refine ⟨fun n _ => ?_, emits_keepsConstants body low typedB records.2⟩
    exact {
      lowerBound := ⟨fits.wellTyped.spares, hasNone v lower unknown⟩
      upperBound := ⟨fits'.wellTyped.spares, hasNone (upperBound v n) upper rfl⟩
      enters := fun _ _ => ⟨List.forall_mem_nil _, trivial⟩
      ends := fun _ _ => ⟨List.forall_mem_nil _, trivial⟩
      step := ⟨List.forall_mem_cons.2 ⟨unknown, List.forall_mem_nil _⟩, trivial⟩ }
  | gotoIf l c value => exact tests typed.wellTyped
  | label _ | goto _ => trivial
  | ret value =>
    cases value with
    | none => exact ⟨List.forall_mem_nil _, trivial⟩
    | some e =>
      obtain ⟨_, _, fits⟩ := typed
      exact ⟨fits.wellTyped.spares, trivial⟩
  | expr e =>
    have wellTyped : e.WellTyped Var.Assignable := typed
    exact ⟨wellTyped.spares, trivial⟩

theorem allEmit_keepsConstants {returns : Option Ty} (ss : List Stmt) (low : Nat)
    (typed : AllWellTyped Var.Assignable returns ss) (records : AllRecordConstants ss) :
    AllEmitOnly KeepsConstants low ss := by
  cases ss with
  | nil => trivial
  | cons s ss =>
    exact ⟨emits_keepsConstants s low typed.1 records.1,
      allEmit_keepsConstants ss low typed.2 records.2⟩

end

end Stmt

structure FnKeepsConstants (p : Fn × Body) : Prop where
  statements : ∀ s ∈ p.2, s.KeepsConstants
  parameters : ∀ v ∈ p.1.parameters, v.constant = none

def Program.KeepsConstants (p : Program) : Prop := ∀ q ∈ p.units.flatten, FnKeepsConstants q

theorem Body.lower_keepsConstants {returns : Option Ty} {body : Body}
    (typed : Stmt.AllWellTyped Var.Assignable returns body)
    (records : Stmt.AllRecordConstants body) (t : Ty) (n : Nat) :
    ∀ s ∈ (body.lower t n).1, s.KeepsConstants := by
  exact body.forall_mem_lower Stmt.keepsConstants_jumps ⟨List.forall_mem_nil _, trivial⟩ t n
    (Stmt.allEmit_keepsConstants body n typed records)

namespace Compilation

variable {options : Options}

theorem lowerBodies_keepsConstants {file : Option String} {u : Source.Unit}
    {bound : List (Fn × Body)} {n : Nat}
    (typed : ∀ p ∈ bound, Stmt.AllWellTyped Var.Assignable p.1.resultType p.2)
    (records : ∀ p ∈ bound,
      Stmt.AllRecordConstants p.2 ∧ ∀ v ∈ p.1.parameters, v.constant = none) :
    ∀ p ∈ (lowerBodies options file u bound n).1.1, FnKeepsConstants p := by
  intro q member
  obtain ⟨p, isBound, lowers⟩ := exists_lowersTo member
  refine ⟨lowers.forall_mem fun n => ?_, ?_⟩
  · exact Body.lower_keepsConstants (typed p isBound) (records p isBound).1 p.1.returns n
  · rw [lowers.same]
    exact (records p isBound).2

/-- A unit that is compiled without errors behind others keeps constants in place if they do. -/
theorem compileAfter_keepsConstants {history : List Declarations} {earlier : List Bodies}
    {u : Source.Unit} {next : Nat} (typed : ∀ d ∈ history, d.Hold Symbol.WellTyped)
    (keeps : ∀ q ∈ earlier.flatten, FnKeepsConstants q)
    (noErrors : (compileAfter options history earlier u next).1.diagnostics.hasErrors = false) :
    (compileAfter options history earlier u next).1.declarations.Hold Symbol.WellTyped ∧
      (compileAfter options history earlier u next).1.program.KeepsConstants := by
  have records := bindUnit_recordsConstants options.scriptMode options.file history u next
  have unit := bindUnit_typed typed (compileAfter_noErrors noErrors).1
  rw [compileAfter_eq]
  refine ⟨unit.declared, fun q member => ?_⟩
  rcases List.mem_append.1 member with new | old
  · exact lowerBodies_keepsConstants (fun p within => (unit.bodies p within).1) records q new
  · exact keeps q old

/-- The units of a chain without errors keep constants in place. -/
theorem chain_keepsConstants (options : Options) (us : List Source.Unit) (next : Nat)
    (noErrors : ∀ c ∈ (chain options us next).1, c.diagnostics.hasErrors = false) :
    ∀ c ∈ (chain options us next).1, c.program.KeepsConstants := by
  rw [chain_eq_compileAll] at noErrors ⊢
  refine forall_mem_compileAll us (I := fun history earlier _ =>
    (∀ d ∈ history, d.Hold Symbol.WellTyped) ∧ ∀ q ∈ earlier.flatten, FnKeepsConstants q)
    (fun u handed unit => ?_) ⟨List.forall_mem_nil _, List.forall_mem_nil _⟩ noErrors
  obtain ⟨declared, keeps⟩ := compileAfter_keepsConstants handed.1 handed.2 unit
  exact ⟨keeps, List.forall_mem_cons.2 ⟨declared, handed.1⟩, keeps⟩

end Compilation

end ScriptLang
