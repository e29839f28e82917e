import ScriptLang.Proofs.BindingScopes
import ScriptLang.Proofs.CompiledWrites

/-! Statements that stand outside of functions cannot return, and the variables in scope there are
global, those in a block as well. So their flat code runs to its end if it comes to no fault, and it
writes only global variables. -/

namespace ScriptLang

/-- Flat code that does not return and writes only global variables. -/
def StaysOutside (code : List Stmt) : Prop :=
  ∀ s ∈ code, (∀ value, s ≠ .ret value) ∧ ∀ v ∈ s.written, v.isGlobal = true

abbrev Expr.MentionsGlobals (e : Expr) : Prop := ∀ v ∈ e.vars, v.isGlobal = true

namespace Stmt

/-- What is behind a statement still mentions only global variables, if it brings along no others. -/
theorem global_or_exported {s : Stmt} (introduced : ∀ v ∈ s.introduced, v.isGlobal = true) (v : Var) :
    v.isGlobal = true ∨ v ∈ s.exports → v.isGlobal = true :=
  Or.rec id fun exported => introduced v (s.exports_subset_introduced exported)

def IsOutside (s : Stmt) : Prop := (∀ value, s ≠ .ret value) ∧ ∀ v ∈ s.written, v.isGlobal = true

theorem isOutside_jumps : OfJumps IsOutside :=
  ⟨fun _ => ⟨nofun, List.forall_mem_nil _⟩, fun _ => ⟨nofun, List.forall_mem_nil _⟩⟩

mutual

theorem emits_outside {assignable : Var → Prop} (s : Stmt) (low : Nat)
    (typed : s.WellTyped assignable none) (inScope : s.Scoped fun v => v.isGlobal = true)
    (introduced : ∀ v ∈ s.introduced, v.isGlobal = true) : s.EmitsOnly IsOutside low := by
  have assigned {e : Expr} (globals : e.MentionsGlobals) : ∀ v ∈ e.assigned, v.isGlobal = true :=
    fun v member => globals v (e.assigned_subset_vars member)
  have tests {c : Expr} (globals : c.MentionsGlobals) : OfTests IsOutside c :=
    fun _ _ => ⟨nofun, assigned globals⟩
  have declares {v : Var} {e : Expr} (isGlobal : v.isGlobal = true) (globals : e.MentionsGlobals) :
      IsOutside (.declare v e) := ⟨nofun, List.forall_mem_cons.2 ⟨isGlobal, assigned globals⟩⟩
  cases s with
  | block body => exact allEmit_outside body low typed inScope introduced
  | ifThen c t => exact ⟨tests inScope.1, emits_outside t low typed.2 inScope.2 introduced⟩
  | ifElse c t e =>
    obtain ⟨introducedT, introducedE⟩ := List.forall_mem_append.1 introduced
    exact ⟨tests inScope.1, emits_outside t low typed.2.1 inScope.2.1 introducedT,
      emits_outside e low typed.2.2 (inScope.2.2.mono (global_or_exported introducedT)) introducedE⟩
  | whileDo c body labels =>
    exact ⟨tests inScope.1, emits_outside body low typed.2 inScope.2 introduced⟩
  | doWhile body c labels =>
    have test : c.MentionsGlobals := fun v member => global_or_exported introduced v (inScope.2 v member)
    exact ⟨tests test, emits_outside body low typed.2 inScope.1 introduced⟩
  | forIn v range body labels =>
    obtain ⟨isGlobal, introducedB⟩ := List.forall_mem_cons.1 introduced
    obtain ⟨lowerGlobals, upperGlobals⟩ := Expr.forall_mem_vars_bounds inScope.1
    have hidden (n : Nat) : (upperBound v n).isGlobal = true := by
      unfold upperBound
      rw [isGlobal]
      rfl
    have inner := emits_outside body low typed.2.2
      (inScope.2.mono fun w isKnown => isKnown.elim id fun same => same ▸ isGlobal) introducedB
    refine ⟨fun n _ => ?_, inner⟩
    exact {
      lowerBound := declares isGlobal lowerGlobals
      upperBound := declares (hidden n) upperGlobals
      enters := fun _ _ => ⟨nofun, List.forall_mem_nil _⟩
      ends := fun _ _ => ⟨nofun, List.forall_mem_nil _⟩
      step := ⟨nofun, List.forall_mem_singleton.2 isGlobal⟩ }
  | gotoIf l c value => exact tests inScope
  | declare v e => exact declares (introduced v List.mem_cons_self) inScope
  | label _ | goto _ => trivial
  | ret value =>
    cases value with
    | none => contradiction
    | some e =>
      obtain ⟨t, impossible, _⟩ := typed
      contradiction
  | expr e => exact ⟨nofun, assigned inScope⟩

theorem allEmit_outside {assignable : Var → Prop} (ss : List Stmt) (low : Nat)
    (typed : AllWellTyped assignable none ss) (inScope : AllScoped (fun v => v.isGlobal = true) ss)
    (introduced : ∀ v ∈ introducedOf ss, v.isGlobal = true) : AllEmitOnly IsOutside low ss := by
  cases ss with
  | nil => trivial
  | cons s ss =>
    obtain ⟨introducedS, introducedSs⟩ := List.forall_mem_append.1 introduced
    exact ⟨emits_outside s low typed.1 inScope.1 introducedS,
      allEmit_outside ss low typed.2 (AllScoped.mono inScope.2 (global_or_exported introducedS))
        introducedSs⟩

end

theorem lowerAll_staysOutside {assignable : Var → Prop} (ss : List Stmt) (n : Nat)
    (typed : AllWellTyped assignable none ss) (inScope : AllScoped (fun v => v.isGlobal = true) ss)
    (introduced : ∀ v ∈ introducedOf ss, v.isGlobal = true) : StaysOutside (lowerAll ss n).1 :=
  forall_mem_lowerAll isOutside_jumps ss n (Nat.le_refl n)
    (allEmit_outside ss n typed inScope introduced)

end Stmt

/-- While such code runs in a frame, the frame and those below stay as they are. -/
theorem Program.runFrom_keepsFrames (p : Program) (limit : Option Nat) {code : List Stmt}
    (writes : ∀ s ∈ code, ∀ v ∈ s.written, v.isGlobal = true) (fuel : Nat) (frames : List Store)
    (place : Nat) : Maintains (fun s => s.frames = frames) (p.runFrom limit fuel code place) := by
  refine p.runFrom_maintains limit fuel (fun n _ s member isEntry place _ => ?_) place
  refine Run.stmt_maintains code isEntry place (fun v written value t same => ?_)
    (fun f _ args => ?_) fun _ _ t value same => same
  · show (t.write v value).frames = frames
    rw [State.write, if_pos (writes s member v written)]
    exact same
  · exact p.callee_keeps_frames limit n f args frames

end ScriptLang
