import ScriptLang.Proofs.ObservedChains
import ScriptLang.Proofs.RetoldUnits

/-! A name means the nearest declaration of it. If a local variable gets another name at its declaration
and wherever it is meant, the unit still compiles, and nothing of its runs changes but the name in a
fault that says that the variable is read before it has a value. -/

namespace ScriptLang

open Source (LocalRename)

def Stop.nameless (stop : Stop) : Stop := stop.relabel Relabelling.nameless.label

structure Outcome.Retold (first second : Outcome) : Prop where
  result : second.result.mapError Stop.nameless = first.result.mapError Stop.nameless
  globals : ∀ v : Var, second.globals.read? v = first.globals.read? v
  host : second.host = first.host

/-- Programs with the same code retold, functions of their own and a body for each have the same
outcomes. -/
theorem Program.evaluate_retold {p p' : Program} (whole : p.SelfContained) (whole' : p'.SelfContained)
    (noErrors : p.diagnostics.hasErrors = false) (noErrors' : p'.diagnostics.hasErrors = false)
    (units : p.units.map (Bodies.rename .nameless) = p'.units.map (Bodies.rename .nameless))
    (entry : Option.Rel Fn.Retold p.entry p'.entry) (limit : Option Nat) (fuel : Nat)
    (globals : Store) (host : Host) :
    (p.evaluate limit fuel globals host).Retold (p'.evaluate limit fuel globals host) := by
  have entries : (p.rename .nameless).entry = p'.entry.map (Fn.rename .nameless) := by
    show p.entry.map (Fn.rename .nameless) = _
    generalize p.entry = e at entry ⊢
    generalize p'.entry = e' at entry ⊢
    cases entry with
    | none => rfl
    | some same => exact congrArg some same
  have start : Store.Renumbered Relabelling.nameless.own globals globals := fun _ => rfl
  -- Both have the outcome of the program in which all variables have one name.
  have renames : p.Renames .nameless (fun _ => True) (p.rename .nameless) := whole.renames rfl
  have renames' : p'.Renames .nameless (fun _ => True) (p.rename .nameless) := whole'.renames units
  have outcome := renames.evaluate_relabels noErrors noErrors rfl
    (fun e isEntry => ⟨trivial, whole.entry e isEntry⟩) limit fuel start host
  have outcome' := renames'.evaluate_relabels noErrors' noErrors entries
    (fun e isEntry => ⟨trivial, whole'.entry e isEntry⟩) limit fuel start host
  refine ⟨outcome'.result.symm.trans outcome.result, fun v => ?_, outcome'.host.symm.trans outcome.host⟩
  exact (outcome'.globals v.id).symm.trans (outcome.globals v.id)

namespace Compilation

/-- The second unit compiles as well, declares the same variables, and has the same outcomes but for
the name of a variable in a fault. -/
structure Retold (c c' : Compilation) : Prop where
  noErrors : c'.diagnostics.hasErrors = false
  vars : c'.declarations.vars = c.declarations.vars
  outcomes : ∀ fuel globals host,
    (c.evaluate fuel globals host).Retold (c'.evaluate fuel globals host)

variable {options : Options} {history : List Declarations} {earlier : List Bodies}
  {u : Source.Unit} {next : Nat} {r : LocalRename}

/-- Retold bodies are lowered to the same code retold, with reports for both or for neither. -/
theorem lowerBodies_retold (file : Option String) (u u' : Source.Unit) {bodies bodies' : Bodies}
    (retold : bodies.Retold bodies') {next next' : Nat} (same : next' = next) :
    Bodies.Retold (lowerBodies options file u bodies next).1.1
        (lowerBodies options file u' bodies' next').1.1 ∧
      ((lowerBodies options file u' bodies' next').1.2 = [] ↔
        (lowerBodies options file u bodies next).1.2 = []) := by
  subst same
  have shifts (k : Nat) : Relabelling.nameless.Shifts next' next' k := fun _ _ => rfl
  have first : LoweredAlike .nameless (lowerBodies options file u bodies next').1
      (lowerBodies options file u (bodies.rename .nameless) next').1 :=
    lowerBodies_rename bodies (shifts _)
  have second : LoweredAlike .nameless (lowerBodies options file u' bodies' next').1
      (lowerBodies options file u (bodies'.rename .nameless) next').1 :=
    lowerBodies_rename bodies' (shifts _)
  rw [← show bodies.rename .nameless = bodies'.rename .nameless from retold] at second
  exact ⟨first.bodies.symm.trans second.bodies, second.reports.symm.trans first.reports⟩

theorem compileAfter_retold (isNew : r.IsNew u)
    (own : ∀ bodies ∈ earlier, ∀ q ∈ bodies, q.1.builtin = none)
    (whole : ∀ bodies ∈ earlier, ∀ q ∈ bodies, q.2.SelfContained)
    (noErrors : (compileAfter options history earlier u next).1.diagnostics.hasErrors = false) :
    (compileAfter options history earlier u next).1.Retold
      (compileAfter options history earlier (r.unit u) next).1 := by
  obtain ⟨silent, noReports⟩ := compileAfter_noErrors noErrors
  have unit := bindUnit_retold isNew silent
  have selfContained (u : Source.Unit) :
      (compileAfter options history earlier u next).1.program.SelfContained :=
    ⟨List.forall_mem_cons.2 ⟨compileAfter_own, own⟩,
      List.forall_mem_cons.2 ⟨compileAfter_selfContained, whole⟩, bindUnit_ownEntry⟩
  obtain ⟨code, reports⟩ := @lowerBodies_retold options (options.file <|> u.file) u (r.unit u) _ _
    unit.bodies _ _ unit.next
  have noErrors' : (compileAfter options history earlier (r.unit u) next).1.diagnostics.hasErrors =
      false :=
    compileAfter_noErrors_of unit.noErrors
      (reports.2 ((lowerBodies_noErrors_iff _ _).1 noReports))
  refine ⟨noErrors', unit.vars, fun fuel globals host => ?_⟩
  exact Program.evaluate_retold (selfContained u) (selfContained (r.unit u)) noErrors noErrors'
    (congrArg (List.cons · _) code) unit.entry _ fuel globals host

/-- Names of local variables do not matter. When local variables of a unit without errors are
renamed, with all that refers to them, to a name that the unit does not use, it has no errors
either. Whatever it starts with, it has the same result or the same kind of fault, it gives its
variables the same values, and it does the same with the host. -/
theorem chain_hides_local_names (options : Options) (us : List Source.Unit) (next : Nat) :
    ∀ g ∈ generations options us next, g.compiled.diagnostics.hasErrors = false →
      ∀ r : LocalRename, r.IsNew g.unit →
        g.compiled.Retold (compileAfter options g.compiled.history g.compiled.program.earlier
          (r.unit g.unit) g.start).1 := by
  intro g member noErrors r isNew
  have fixes : Renaming.identity.Fixes g.start := ⟨fun _ _ => rfl, fun _ => rfl⟩
  have keeps := generationsAfter_keepsUnits us ⟨List.forall_mem_nil _, List.forall_mem_nil _,
    List.forall_mem_nil _, List.forall_mem_nil _⟩ g member fixes
  have compiled : g.compiled =
      (compileAfter options g.compiled.history g.compiled.program.earlier g.unit g.start).1 :=
    generationsAfter_compiled us g member
  rw [compiled] at noErrors
  have retold := compileAfter_retold isNew keeps.own keeps.whole noErrors
  rwa [← compiled] at retold

end Compilation

namespace Shadowing

open Source

def first : Source.Unit × Cursor := Sketch.Unit.place ⟨none, [
  .statement (.declare .varKeyword "n" none (.literal (.int 10)))]⟩ .start

/-- `function grow(n: int): int { let half = n / 2  if half > 3 { let n = half * 5  return n }`
`return n + 1 }  print(grow(n))  for n in 1..2 print(grow(n))`, with any name for the parameter. -/
def text (parameter : String) : Sketch.Unit := ⟨none, [
  .function ⟨"grow", [(parameter, "int")], some "int", [
    .declare .letKeyword "half" none (.binary (.name parameter) .slash (.literal (.int 2))),
    .ifThen (.binary (.name "half") .greater (.literal (.int 3))) (.block [
      .declare .letKeyword "n" none (.binary (.name "half") .star (.literal (.int 5))),
      .ret (some (.name "n"))]),
    .ret (some (.binary (.name parameter) .plus (.literal (.int 1))))]⟩,
  .statement (.expr (.call "print" [.call "grow" [.name "n"]])),
  .statement (.forIn "n" (.range (.literal (.int 1)) (.literal (.int 2)))
    (.expr (.call "print" [.call "grow" [.name "n"]])))]⟩

def second : Source.Unit := (Sketch.Unit.place (text "n") first.2).1

def shift (offset : Nat) : Nat := offset + 4 * [9, 57, 75].countP (· < offset)

def rename : LocalRename where
  old := "n"
  new := "count"
  picks m := second.functions.any fun f => f.parameters.any fun p => p.name.mark = m
  place range := ⟨shift range.pos, shift range.stop⟩

/-- Only the names that mean the parameter are renamed. -/
example : rename.unit second = (Sketch.Unit.place (text "count") first.2).1 := by cbv

end Shadowing

/-- A parameter is renamed that has its name in common with a variable of the unit before, with a
variable of a block and with a loop variable. -/
theorem shadowing_retold :
    ∃ g ∈ Compilation.generations .standard [Shadowing.first.1, Shadowing.second] 0,
      g.start ≠ 0 ∧ g.compiled.diagnostics.hasErrors = false ∧ g.unit = Shadowing.second ∧
        Shadowing.rename.IsNew g.unit ∧
        g.compiled.Retold (Compilation.compileAfter .standard g.compiled.history
          g.compiled.program.earlier (Shadowing.rename.unit g.unit) g.start).1 := by
  have last : ∃ g ∈ Compilation.generations .standard [Shadowing.first.1, Shadowing.second] 0,
      g.start ≠ 0 ∧ g.compiled.diagnostics.hasErrors = false ∧ g.unit.functions.length = 1 := by
    decide +kernel
  obtain ⟨g, member, isLater, noErrors, one⟩ := last
  have isSecond : g.unit = Shadowing.second := by
    have among : g.unit ∈ _ := List.mem_map_of_mem member
    rw [Compilation.generations_units] at among
    simp only [List.mem_cons, List.not_mem_nil, or_false] at among
    exact among.resolve_left fun isFirst => absurd (isFirst ▸ one) (by decide +kernel)
  have isNew : Shadowing.rename.IsNew g.unit := by
    rw [isSecond]
    exact ⟨by decide +kernel, by decide +kernel⟩
  exact ⟨g, member, isLater, noErrors, isSecond, isNew,
    Compilation.chain_hides_local_names .standard [Shadowing.first.1, Shadowing.second] 0 g member
      noErrors Shadowing.rename isNew⟩

end ScriptLang
