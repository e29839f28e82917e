import ScriptLang.Proofs.JoinedUnits
import ScriptLang.Proofs.OutsideCode

/-! The statements of a script become the code of its entry function, which no code can call. Where two
scripts are joined, this code is that of the first one and then that of the second one, and the
functions of both have the same code as before, under other numbers. -/

namespace ScriptLang

section

variable (file : Option String) (history : List Declarations) (u : Source.Unit) (next : Nat)

def scriptEntry : Fn :=
  ⟨(Binding.globalsPass true file history u next).2.nextId, Binding.scriptName, [], .void, none, none⟩

def scriptCode : Body :=
  (Stmt.lowerAll (Binding.globalsPass true file history u next).1.1
    ((Binding.unitCounts file history u next).entryAt next)).1

def scriptFns (options : Options) (source : Option String) : Bodies :=
  (Compilation.lowerBodies options source u (Binding.bodiesPass true file history u next).1
    ((Binding.unitCounts file history u next).loweredAt next)).1.1

end

namespace Binding

variable {file : Option String} {history : List Declarations} {u : Source.Unit} {next : Nat}

/-- The statements of a script are bound to a body that is not one of its functions. -/
theorem bindUnit_script : (bindUnit true file history u next).1.bodies =
    (bodiesPass true file history u next).1 ++
      [(scriptEntry file history u next, (globalsPass true file history u next).1.1)] := by
  have isEntry : (bindUnit true file history u next).1.declarations.entry =
      some (scriptEntry file history u next) := rfl
  rw [bindUnit_bodies, entryPass_script, addEntry, if_neg]
  · rfl
  · intro isOld
    obtain ⟨p, within, same⟩ := List.any_eq_true.1 isOld
    have isBody : p.1 ∈ (bindUnit true file history u next).1.bodies.map Prod.fst := by
      rw [bindUnit_bodies]
      exact List.mem_map_of_mem (addEntry_keeps _ _ within)
    have isOne : p.1 = scriptEntry file history u next :=
      bindUnit_entry_unique true file u isEntry p.1 isBody (of_decide_eq_true same)
    have keys : (bodiesPass true file history u next).1.map Prod.fst =
      (headsPass file history u next).1.1.map Prod.fst := bodiesPass_keys
    have given := headsPass_given (keys ▸ List.mem_map_of_mem within)
    rw [isOne] at given
    contradiction

/-- The code of a script without mistakes does not return, and it writes only global variables. -/
theorem scriptCode_staysOutside (vars : ∀ d ∈ history, ∀ v ∈ d.vars, v.isGlobal = true)
    (typed : ∀ d ∈ history, d.Hold Symbol.WellTyped)
    (silent : (bodiesPass true file history u next).2.Silent) :
    StaysOutside (scriptCode file history u next) := by
  have member : (scriptEntry file history u next, (globalsPass true file history u next).1.1) ∈
      (bindUnit true file history u next).1.bodies := by
    rw [bindUnit_script]
    exact List.mem_append_right _ List.mem_cons_self
  have wellTyped : Stmt.AllWellTyped Var.Assignable none
      (globalsPass true file history u next).1.1 := ((bindUnit_typed typed silent).bodies _ member).1
  have inScope := bindUnit_scoped vars true file u next _ member
  have declared := bindUnit_declaresGlobals vars true file u next
  have introduced : ∀ v ∈ Stmt.introducedOf (globalsPass true file history u next).1.1,
      v.isGlobal = true := (globals_introduces u.statements (headsPass file history u next).2).kind
  refine Stmt.lowerAll_staysOutside _ _ wellTyped (inScope.mono ?_) introduced
  rintro v ((isGlobal | isOwn) | isParameter)
  · exact isGlobal
  · exact declared v isOwn
  · contradiction

end Binding

namespace Compilation

variable {options : Options} {file : Option String} {history : List Declarations}
  {earlier : List Bodies} {u : Source.Unit} {next : Nat}

theorem lowerBodies_withEntry {source : Option String} (keeps : options.removeUnreachable = false)
    (bodies : Bodies) {e : Fn} (isVoid : e.returns = .void) (statements : Body) (n : Nat) :
    (lowerBodies options source u (bodies ++ [(e, statements)]) n).1 =
      ((lowerBodies options source u bodies n).1.1 ++
        [(e, Body.close .void (Stmt.lowerAll statements (n + bodies.lowerCount)).1)],
        (lowerBodies options source u bodies n).1.2) := by
  rw [lowerBodies_append]
  dsimp only
  rw [lowerBodies_cons, lowerBodies_count, keeps, isVoid]
  have isSilent : returnsValue e = false := by rw [returnsValue, isVoid]; rfl
  rw [isSilent]
  refine Prod.ext rfl ?_
  exact List.append_nil _

/-- What a script is compiled to. -/
theorem compileAfter_script (isScript : options.scriptMode = true)
    (keeps : options.removeUnreachable = false) :
    (compileAfter options history earlier u next).1.program.bodies =
        scriptFns options.file history u next options (options.file <|> u.file) ++
          [(scriptEntry options.file history u next,
            Body.close .void (scriptCode options.file history u next))] ∧
      (compileAfter options history earlier u next).1.program.entry =
        some (scriptEntry options.file history u next) ∧
      (compileAfter options history earlier u next).2 =
        (Binding.unitCounts options.file history u next).stop next := by
  rw [compileAfter_end, compileAfter_eq, isScript]
  dsimp only
  rw [Binding.bindUnit_script, lowerBodies_withEntry keeps _ rfl]
  have start : (bindUnit true options.file history u next).2 =
    (Binding.unitCounts options.file history u next).loweredAt next := Binding.bodiesPass_loweredAt
  rw [start]
  refine ⟨rfl, rfl, ?_⟩
  rw [Bodies.lowerCount, List.map_append, List.sum_append, List.map_singleton, List.sum_singleton,
    ← Nat.add_assoc]
  rfl

/-- A script with no errors is bound without a mistake. -/
theorem compileAfter_silent (isScript : options.scriptMode = true)
    (noErrors : (compileAfter options history earlier u next).1.diagnostics.hasErrors = false) :
    (Binding.bodiesPass true options.file history u next).2.Silent := by
  have silent := (compileAfter_noErrors noErrors).1
  rw [isScript] at silent
  exact silent

/-- Lowering the functions of a script with no errors reports nothing. -/
theorem compileAfter_noReports (isScript : options.scriptMode = true)
    (keeps : options.removeUnreachable = false)
    (noErrors : (compileAfter options history earlier u next).1.diagnostics.hasErrors = false) :
    (lowerBodies options (options.file <|> u.file) u
      (Binding.bodiesPass true options.file history u next).1
      ((Binding.unitCounts options.file history u next).loweredAt next)).1.2 = [] := by
  have noReports := (lowerBodies_noErrors_iff _ _).1 (compileAfter_noErrors noErrors).2
  have start : (bindUnit true options.file history u next).2 =
    (Binding.unitCounts options.file history u next).loweredAt next := Binding.bodiesPass_loweredAt
  rw [isScript, start, Binding.bindUnit_script, lowerBodies_withEntry keeps _ rfl] at noReports
  exact noReports

end Compilation

namespace Binding.Joining

variable {ρ : Renaming} {file : Option String} {u₁ u₂ w : Source.Unit} {next later : Nat}

theorem loweredAt (joining : Joining ρ file u₁ u₂ w next later) :
    (unitCounts file [] w next).loweredAt next = ((unitCounts file [] u₁ next).join
      (unitCounts file [firstDeclarations file u₁ next] u₂ later)).loweredAt next :=
  bodiesPass_loweredAt.symm.trans joining.joined_next

theorem entryAt (joining : Joining ρ file u₁ u₂ w next later) :
    (unitCounts file [] w next).entryAt next = ((unitCounts file [] u₁ next).join
      (unitCounts file [firstDeclarations file u₁ next] u₂ later)).entryAt next := by
  have lowered : (unitCounts file [] w next).lowered = (unitCounts file [] u₁ next).lowered +
      (unitCounts file [firstDeclarations file u₁ next] u₂ later).lowered := by
    show Bodies.lowerCount (bodiesPass true file [] w next).1 = _
    rw [joining.bodies, Bodies.lowerCount, List.map_append, List.sum_append]
    exact congrArg₂ (· + ·) (Bodies.lowerCount_rename _) (Bodies.lowerCount_rename _)
  rw [UnitCounts.entryAt, joining.loweredAt, lowered]
  rfl

/-- The code of joined statements is that of the first ones and then that of the second ones. -/
theorem scriptCode_eq (joining : Joining ρ file u₁ u₂ w next later) :
    scriptCode file [] w next = (scriptCode file [] u₁ next).rename ρ ++
      (scriptCode file [firstDeclarations file u₁ next] u₂ later).rename ρ := by
  have first := (@Stmt.lowerAll_rename ρ _ _ _ joining.numbers.entry.1).1
  have second := (@Stmt.lowerAll_rename ρ _ _ _ joining.numbers.entry.2).1
  have count : Stmt.lowerCountOf (Stmt.renameAll ρ (globalsPass true file [] u₁ next).1.1) = _ :=
    Stmt.lowerCountOf_rename _
  rw [Stmt.renameAll_eq_map] at first second count
  rw [scriptCode, joining.entryAt, joining.statements, Stmt.lowerAll_append, Body.rename, first,
    Body.rename, count]
  exact congrArg _ second

/-- The functions of both scripts are lowered to the same, with reports for all or for none. -/
theorem lowered (joining : Joining ρ file u₁ u₂ w next later) (options : Options)
    (source source₁ source₂ : Option String) :
    let first := (Compilation.lowerBodies options source₁ u₁ (bodiesPass true file [] u₁ next).1
      ((unitCounts file [] u₁ next).loweredAt next)).1
    let second := (Compilation.lowerBodies options source₂ u₂
      (bodiesPass true file [firstDeclarations file u₁ next] u₂ later).1
      ((unitCounts file [firstDeclarations file u₁ next] u₂ later).loweredAt later)).1
    let whole := (Compilation.lowerBodies options source w (bodiesPass true file [] w next).1
      ((unitCounts file [] w next).loweredAt next)).1
    whole.1 = first.1.rename ρ ++ second.1.rename ρ ∧
      (first.2 = [] → second.2 = [] → whole.2 = []) := by
  intro first second whole
  have alike : Compilation.LoweredAlike ρ first (Compilation.lowerBodies options source w
      (Bodies.rename ρ (bodiesPass true file [] u₁ next).1) _).1 :=
    Compilation.lowerBodies_rename _ joining.numbers.lowered.1
  have alike' : Compilation.LoweredAlike ρ second (Compilation.lowerBodies options source w
      (Bodies.rename ρ (bodiesPass true file [firstDeclarations file u₁ next] u₂ later).1) _).1 :=
    Compilation.lowerBodies_rename _ joining.numbers.lowered.2
  have parts : whole = (Compilation.lowerBodies options source w _ _).1 := rfl
  rw [joining.bodies, joining.loweredAt, Compilation.lowerBodies_append] at parts
  dsimp only at parts
  rw [Compilation.lowerBodies_count, Bodies.lowerCount_rename] at parts
  rw [parts]
  refine ⟨congrArg₂ (· ++ ·) alike.bodies alike'.bodies, fun noFirst noSecond => ?_⟩
  exact List.append_eq_nil_iff.2 ⟨alike.reports.2 noFirst, alike'.reports.2 noSecond⟩

end Binding.Joining

end ScriptLang
