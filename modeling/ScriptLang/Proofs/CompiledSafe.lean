import ScriptLang.Proofs.BindingUnit
import ScriptLang.Proofs.EmittedCode
import ScriptLang.Proofs.LoweredBodies
import ScriptLang.Proofs.LoweringSafe

/-! Units that are compiled one after another without errors have safe bodies, and what a
body calls has a body in its unit or in an earlier one. -/

namespace ScriptLang

structure BoundSafe (known : Var → Prop) (callable : Fn → Prop) (p : Fn × Body) : Prop where
  typed : Stmt.AllWellTyped Var.Assignable p.1.resultType p.2
  jumps : Stmt.AllJumpWithin [] p.2
  vars : ∀ v ∈ Stmt.varsOf p.2, known v
  calls : ∀ f ∈ Stmt.callsOf p.2, callable f

theorem BoundSafe.mono {known more : Var → Prop} {callable : Fn → Prop} {p : Fn × Body}
    (safe : BoundSafe known callable p) (wider : ∀ v, known v → more v) :
    BoundSafe more callable p :=
  { safe with vars := fun v member => wider v (safe.vars v member) }

theorem Fn.returns_of_resultType {f : Fn} {t : Ty} (given : f.resultType = some t) :
    t = f.returns := by
  obtain ⟨_, _, same⟩ := Option.map_eq_some_iff.1 given
  exact same.symm

/-- Jumps of a flat body lead to labels that it defines itself. -/
theorem Body.lower_targets {body : Body} (jumps : Stmt.AllJumpWithin [] body) (returns : Ty)
    (n : Nat) :
    ∀ s ∈ (body.lower returns n).1, ∀ l ∈ s.targets, l.id ∈ definitions (body.lower returns n).1 := by
  show JumpsTo (fun id => id ∈ definitions (Body.close returns (Stmt.lowerAll body n).1))
    (Body.close returns (Stmt.lowerAll body n).1)
  rw [Body.definitions_close]
  refine Body.forall_mem_close ((Stmt.lowerAll_jumps body n jumps).mono ?_)
    (List.forall_mem_nil _) returns
  rintro id (defined | ⟨_, member, _⟩)
  · exact defined
  · contradiction

theorem BoundSafe.lower {known : Var → Prop} {callable : Fn → Prop} {f : Fn} {body : Body} {n : Nat}
    (census : Census Var.id known n) (safe : BoundSafe known callable (f, body)) :
    GrowsSafe known callable f.returns (body.lower f.returns n).1 (body.lower f.returns n).2 ∧
      ∀ s ∈ (body.lower f.returns n).1, ∀ l ∈ s.targets,
        l.id ∈ definitions (body.lower f.returns n).1 := by
  refine ⟨?_, Body.lower_targets safe.jumps f.returns n⟩
  obtain ⟨more, wider, census', safe'⟩ := Stmt.lowerAll_safe body n census safe.typed
    (fun _ => Fn.returns_of_resultType) safe.vars safe.calls
  refine ⟨more, wider, census', ?_⟩
  show ∀ s ∈ Body.close f.returns (Stmt.lowerAll body n).1, _
  unfold Body.close
  split
  next closes =>
    refine List.forall_mem_append.2 ⟨safe', List.forall_mem_cons.2 ⟨?_, List.forall_mem_nil _⟩⟩
    exact ⟨rfl, congrArg some closes.1, List.forall_mem_nil _, List.forall_mem_nil _⟩
  next => exact safe'

/-- A safe body stays so without its unreachable code. -/
theorem Body.safe_of_returns {known : Var → Prop} {callable : Fn → Prop} {returns : Ty}
    {body : Body} (statements : ∀ s ∈ body, s.Safe known callable returns)
    (targets : ∀ s ∈ body, ∀ l ∈ s.targets, l.id ∈ definitions body)
    (allReturn : returns ≠ .void → body.allPathsReturn = true) (removes : Bool) :
    (if removes then body.removeUnreachable else body).Safe known callable returns := by
  cases removes with
  | false => exact ⟨statements, targets, fun hasValue => staysInside_of_returns (allReturn hasValue)⟩
  | true =>
    exact ⟨fun s kept => statements s (mem_of_mem_removeUnreachable kept),
      removeUnreachable_targets targets,
      fun hasValue => removeUnreachable_staysInside (allReturn hasValue)⟩

structure FnSafe (known : Var → Prop) (callable : Fn → Prop) (p : Fn × Body) : Prop where
  body : p.2.Safe known callable p.1.returns
  wellTyped : p.1.WellTyped
  userMade : p.1.builtin = none
  parameters : ∀ v ∈ p.1.parameters, known v

theorem FnSafe.mono {known more : Var → Prop} {callable others : Fn → Prop} {p : Fn × Body}
    (safe : FnSafe known callable p) (vars : ∀ v, known v → more v)
    (calls : ∀ f, callable f → others f) : FnSafe more others p :=
  { safe with
    body := safe.body.mono vars calls
    parameters := fun v member => vars v (safe.parameters v member) }

namespace Compilation

variable {options : Options} {file : Option String} {u : Source.Unit}

theorem missingReturn_isError (f : Fn) : (missingReturn file u f).isError = true := by
  unfold missingReturn
  split <;> rfl

theorem lowerBodies_safe {known : Var → Prop} {callable : Fn → Prop} {bound : List (Fn × Body)}
    {n : Nat} (census : Census Var.id known n) (safe : ∀ p ∈ bound, BoundSafe known callable p)
    (wellTyped : ∀ p ∈ bound, p.1.WellTyped)
    (noErrors : ∀ d ∈ (lowerBodies options file u bound n).1.2, d.isError = false) :
    ∃ more : Var → Prop, (∀ v, known v → more v) ∧
      Census Var.id more (lowerBodies options file u bound n).2 ∧
      ∀ p ∈ (lowerBodies options file u bound n).1.1, p.2.Safe more callable p.1.returns := by
  induction bound generalizing n known with
  | nil => exact ⟨known, fun _ => id, census, nofun⟩
  | cons p bound ih =>
    obtain ⟨f, body⟩ := p
    rw [lowerBodies_cons] at noErrors ⊢
    obtain ⟨noReport, noReports⟩ := List.forall_mem_append.1 noErrors
    obtain ⟨safeFirst, safeRest⟩ := List.forall_mem_cons.1 safe
    obtain ⟨typedFirst, typedRest⟩ := List.forall_mem_cons.1 wellTyped
    obtain ⟨⟨more, wider, census', statements⟩, targets⟩ := safeFirst.lower census
    obtain ⟨most, wider', census'', safe'⟩ := ih census'
      (fun p member => (safeRest p member).mono wider) typedRest noReports
    have allReturn (hasValue : f.returns ≠ .void) :
        (body.lower f.returns n).1.allPathsReturn = true := by
      have returns : returnsValue f = true := by
        simp [returnsValue, hasValue, typedFirst.known]
      rw [returns, Bool.true_and] at noReport
      cases all : (body.lower f.returns n).1.allPathsReturn with
      | true => rfl
      | false =>
        have isNoError := noReport (missingReturn file u f) (by simp [all])
        rw [missingReturn_isError] at isNoError
        contradiction
    refine ⟨most, fun v isKnown => wider' v (wider v isKnown), census'', ?_⟩
    refine List.forall_mem_cons.2 ⟨?_, safe'⟩
    exact (Body.safe_of_returns statements targets allReturn _).mono wider' fun _ => id

end Compilation

end ScriptLang
