import ScriptLang.Proofs.BoundChains
import ScriptLang.Proofs.RenamedRuns
import ScriptLang.Proofs.RenamedTexts
import ScriptLang.Proofs.ShiftedUnits

/-! The numbers of symbols come from one counter, which keeps counting from unit to unit and from chain
to chain. Where it stands when a chain is compiled cannot be seen: neither in what is reported,
declared and printed of the units, nor in what their runs give, print and leave behind. -/

namespace ScriptLang

structure Program.SelfContained (p : Program) : Prop where
  own : ∀ bodies ∈ p.units, ∀ q ∈ bodies, q.1.builtin = none
  whole : ∀ bodies ∈ p.units, ∀ q ∈ bodies, q.2.SelfContained
  entry : ∀ e, p.entry = some e → e.builtin = none

section

variable {ρ : Renaming}

/-- A program with the same code under other numbers. -/
theorem Program.SelfContained.renames {κ : Relabelling} {p p' : Program} (whole : p.SelfContained)
    (units : p'.units = p.units.map (Bodies.rename κ)) : p.Renames κ (fun _ => True) p' where
  body? f _ ownF := by
    have found (units : List Bodies) (own : ∀ bodies ∈ units, ∀ q ∈ bodies, q.1.builtin = none) :
        (units.map (Bodies.rename κ)).findSome? (Bodies.body? · (f.rename κ)) =
          (units.findSome? (Bodies.body? · f)).map (Body.rename κ) := by
      induction units with
      | nil => rfl
      | cons bodies units ih =>
        obtain ⟨first, rest⟩ := List.forall_mem_cons.1 own
        rw [List.map_cons, List.findSome?_cons, List.findSome?_cons, Bodies.body?_rename first ownF,
          ih rest]
        cases bodies.body? f <;> rfl
    show p'.units.findSome? (Bodies.body? · (f.rename κ)) = _
    rw [units]
    exact found p.units whole.own
  whole f body _ found := by
    obtain ⟨g, member, _⟩ := Program.mem_of_body? found
    obtain ⟨bodies, unit, within⟩ := List.mem_flatten.1 member
    exact whole.whole bodies unit _ within
  calls _ _ _ _ _ _ _ _ := trivial

namespace Compilation

variable {options : Options} {history : List Declarations} {earlier : List Bodies}

theorem compileAll_carried {n n' : Nat} (us : List Source.Unit) (carries : ρ.Carries n n') :
    (compileAll options (history.map (Declarations.rename ρ)) (earlier.map (Bodies.rename ρ)) us
      n').1 = (compileAll options history earlier us n).1.map (rename ρ) := by
  induction us generalizing history earlier n n' with
  | nil => rfl
  | cons u us ih =>
    obtain ⟨compiled, numbers⟩ :=
      @compileAfter_carried ρ options history earlier u n n' carries
    have rest := @ih ((compileAfter options history earlier u n).1.declarations :: history)
      (compileAfter options history earlier u n).1.program.units _ _ numbers
    rw [compileAll_cons, compileAll_cons]
    dsimp only
    rw [compiled]
    exact congrArg (List.cons _) rest

/-- From another start, a chain is compiled to the same under other numbers. -/
theorem chain_carried {n n' : Nat} (options : Options) (us : List Source.Unit)
    (carries : ρ.Carries n n') :
    (chain options us n').1 = (chain options us n).1.map (rename ρ) := by
  rw [chain_eq_compileAll, chain_eq_compileAll]
  exact @compileAll_carried ρ options [] [] n n' us carries

theorem compileAll_whole (us : List Source.Unit) {next : Nat}
    (own : ∀ bodies ∈ earlier, ∀ q ∈ bodies, q.1.builtin = none)
    (whole : ∀ bodies ∈ earlier, ∀ q ∈ bodies, q.2.SelfContained) :
    ∀ c ∈ (compileAll options history earlier us next).1, c.program.SelfContained := by
  refine forall_mem_compileAll us (E := fun _ => True)
    (I := fun _ earlier _ => (∀ bodies ∈ earlier, ∀ q ∈ bodies, q.1.builtin = none) ∧
      ∀ bodies ∈ earlier, ∀ q ∈ bodies, q.2.SelfContained)
    (fun {history earlier next} u units _ => ?_) ⟨own, whole⟩ fun _ _ => trivial
  have ownUnits := List.forall_mem_cons.2 ⟨@compileAfter_own options history earlier u next, units.1⟩
  have wholeUnits := List.forall_mem_cons.2
    ⟨@compileAfter_selfContained options history earlier u next, units.2⟩
  exact ⟨⟨ownUnits, wholeUnits, bindUnit_ownEntry⟩, ownUnits, wholeUnits⟩

theorem chain_whole (options : Options) (us : List Source.Unit) (next : Nat) :
    ∀ c ∈ (chain options us next).1, c.program.SelfContained := by
  rw [chain_eq_compileAll]
  exact compileAll_whole us (List.forall_mem_nil _) (List.forall_mem_nil _)

/-- A compilation under other numbers has the same outcomes, also where it has errors. -/
theorem evaluate_rename {c : Compilation} (whole : c.program.SelfContained) (fuel : Nat)
    {globals globals' : Store} (start : globals.Renumbered ρ.own globals') (host : Host) :
    (c.evaluate fuel globals host).Renumbered ρ.own
      ((c.rename ρ).evaluate fuel globals' host) := by
  cases errors : c.program.diagnostics.hasErrors with
  | false =>
    have renames : c.program.Renames ρ (fun _ => True) (c.program.rename ρ) := whole.renames rfl
    exact renames.evaluate_renames errors errors rfl
      (fun e isEntry => ⟨trivial, whole.entry e isEntry⟩) _ fuel start host
  | true =>
    have stops (p : Program) (errors : p.diagnostics.hasErrors = true) (globals : Store) :
        p.evaluate c.options.maxCallDepth fuel globals host =
          ⟨.error (.fault (.hasErrors p.diagnostics.errorCount)), globals, host⟩ := by
      unfold Program.evaluate Program.execute Program.executeWith
      rw [if_pos errors]
      rfl
    unfold evaluate
    rw [stops c.program errors, show (c.rename ρ).options = c.options from rfl,
      stops (c.rename ρ).program errors]
    exact ⟨rfl, start, rfl⟩

theorem evaluateAll_rename {cs : List Compilation} (whole : ∀ c ∈ cs, c.program.SelfContained)
    (fuel : Nat) {globals globals' : Store} (start : globals.Renumbered ρ.own globals')
    (host : Host) :
    List.Forall₂ (Outcome.Renumbered ρ.own) (evaluateAll fuel globals host cs)
      (evaluateAll fuel globals' host (cs.map (rename ρ))) := by
  induction cs generalizing globals globals' host with
  | nil => exact .nil
  | cons c cs ih =>
    obtain ⟨first, rest⟩ := List.forall_mem_cons.1 whole
    have outcome := evaluate_rename first fuel start host
    refine .cons outcome ?_
    rw [outcome.host]
    exact ih rest outcome.globals _

end Compilation

end

def Var.anonymous (v : Var) : Var := v.renumber fun _ => 0

def Fn.anonymous (f : Fn) : Fn := f.renumber fun _ => 0

/-- What can be seen of a compiled unit: what is reported of it, by binding alone and in all, what it
declares, and the texts of its code and of the flow graphs of its functions. -/
structure UnitView where
  bindingReports : Diagnostics
  reports : Diagnostics
  vars : List Var
  fns : List Fn
  entry : Option Fn
  tree : String
  graph? : String → Option String

/-- What can be seen of a run: its result, the values that global variables have behind it, and what
it has done with the host. -/
structure RunView where
  result : Except Stop (Option Value)
  values : List (Option Value)
  host : Host

def Compilation.view (c : Compilation) : UnitView where
  bindingReports := c.declarations.diagnostics
  reports := c.diagnostics
  vars := c.declarations.vars.map Var.anonymous
  fns := c.declarations.fns.map Fn.anonymous
  entry := c.program.entry.map Fn.anonymous
  tree := c.treeText
  graph? := c.graphText?

def Outcome.view (vars : List Var) (out : Outcome) : RunView :=
  ⟨out.result, vars.map out.globals.read?, out.host⟩

/-- What can be seen of units that are compiled in a row, with symbols numbered from `next` on, and
then run in a row on a host. -/
def Compilation.observe (options : Options) (us : List Source.Unit) (fuel : Nat) (host : Host)
    (next : Nat) : List UnitView × List RunView :=
  let cs := (chain options us next).1
  let vars := cs.flatMap fun c => c.declarations.vars
  (cs.map view, (evaluateAll fuel .empty host cs).map (Outcome.view vars))

section

variable {ρ : Renaming}

theorem Var.anonymous_rename (v : Var) : (v.rename ρ).anonymous = v.anonymous := rfl

theorem Fn.anonymous_rename (f : Fn) : (f.rename ρ).anonymous = f.anonymous := by
  simp only [Fn.rename_plain, anonymous, renumber, List.map_map]
  rfl

theorem Fn.signature_rename (f : Fn) : (f.rename ρ).signature = f.signature := by
  simp only [Fn.rename_plain, signature, renumber, List.map_map]
  rfl

namespace Compilation

theorem treeText_rename (c : Compilation) : (c.rename ρ).treeText = c.treeText := by
  unfold treeText
  dsimp only [rename, Program.rename]
  rw [Bodies.rename, List.map_map]
  simp only [Function.comp_def, Prod.map_fst, Prod.map_snd, Fn.signature_rename, Body.text_rename]

theorem graphText?_rename (c : Compilation) (name : String) :
    (c.rename ρ).graphText? name = c.graphText? name := by
  unfold graphText?
  dsimp only [rename, Program.rename]
  rw [Bodies.rename, List.find?_map, Option.map_map]
  simp only [Function.comp_def, Prod.map_fst, Prod.map_snd, Fn.name_rename, Body.dot_rename]
  rfl

theorem view_rename (c : Compilation) : (c.rename ρ).view = c.view := by
  unfold view
  rw [funext (graphText?_rename c), treeText_rename]
  dsimp only [rename, Program.rename, Declarations.rename, diagnostics]
  simp only [List.map_map, Option.map_map, Function.comp_def, Var.anonymous_rename,
    Fn.anonymous_rename]

end Compilation

theorem Outcome.view_renumbered {out out' : Outcome} (renumbered : out.Renumbered ρ.own out')
    (vars : List Var) : out'.view (vars.map (Var.rename ρ)) = out.view vars := by
  have values : (vars.map (Var.rename ρ)).map out'.globals.read? = vars.map out.globals.read? := by
    rw [List.map_map]
    exact List.map_congr_left fun v _ => renumbered.globals v.id
  rw [view, view, values, renumbered.result, renumbered.host]

namespace Compilation

theorem observe_carried {n n' : Nat} (options : Options) (us : List Source.Unit) (fuel : Nat)
    (host : Host) (carries : ρ.Carries n n') :
    observe options us fuel host n' = observe options us fuel host n := by
  have start : Store.Renumbered ρ.own .empty .empty := .empty
  have runs := evaluateAll_rename (chain_whole options us n) fuel start host
  unfold observe
  dsimp only
  rw [chain_carried options us carries]
  refine congrArg₂ Prod.mk ?_ ?_
  · rw [List.map_map]
    exact List.map_congr_left fun c _ => view_rename c
  · have vars : (((chain options us n).1.map (rename ρ)).flatMap fun c => c.declarations.vars) =
        ((chain options us n).1.flatMap fun c => c.declarations.vars).map (Var.rename ρ) := by
      rw [List.flatMap_map, List.map_flatMap]
      rfl
    rw [vars]
    refine List.forall₂_eq_eq_eq ▸ ?_
    rw [List.forall₂_map_left_iff, List.forall₂_map_right_iff]
    exact runs.flip.imp fun out' out renumbered => Outcome.view_renumbered renumbered _

/-- The counter of symbols cannot be seen. From whatever number on the symbols of a chain are
numbered, the same is reported of its units, they declare the same, their code and their flow graphs
read the same, and they have the same runs on every host. -/
theorem chain_hides_numbers (options : Options) (us : List Source.Unit) (fuel : Nat) (host : Host)
    (n n' : Nat) : observe options us fuel host n = observe options us fuel host n' := by
  rcases Nat.le_total n n' with le | le
  · obtain ⟨ρ, carries⟩ := Renaming.exists_carries le
    exact (observe_carried options us fuel host carries).symm
  · obtain ⟨ρ, carries⟩ := Renaming.exists_carries le
    exact observe_carried options us fuel host carries

end Compilation

end

end ScriptLang
