import ScriptLang.Compilation

/-! A chain compiles its units one by one, each behind the declarations and the bodies of those before
it. What each unit hands on to the next one is in place wherever a unit of the chain is compiled. -/

namespace ScriptLang

namespace Program

/-- The units that a program can call into, its own first. -/
def units (p : Program) : List Bodies := p.bodies :: p.earlier

end Program

/-- One unit of a chain, the number from which its symbols are numbered, and what it is compiled
to. -/
structure Generation where
  unit : Source.Unit
  start : Nat
  compiled : Compilation

namespace Generation

def number (g : Generation) : Nat := g.compiled.history.length

def bound (g : Generation) : BoundUnit :=
  (bindUnit g.compiled.options.scriptMode g.compiled.options.file g.compiled.history g.unit
    g.start).1

end Generation

namespace Compilation

theorem compileAfter_eq (options : Options) (history : List Declarations) (earlier : List Bodies)
    (u : Source.Unit) (next : Nat) :
    compileAfter options history earlier u next =
      let bound := bindUnit options.scriptMode options.file history u next
      let lowered := lowerBodies options (options.file <|> u.file) u bound.1.bodies bound.2
      ({ options
         declarations := bound.1.declarations
         program :=
          { diagnostics := (lowered.1.2.foldl Diagnostics.add bound.1.declarations.diagnostics).sort
            entry := bound.1.declarations.entry
            bodies := lowered.1.1
            earlier }
         history }, lowered.2) := rfl

theorem compileAfter_options (options : Options) (history : List Declarations)
    (earlier : List Bodies) (u : Source.Unit) (next : Nat) :
    (compileAfter options history earlier u next).1.options = options ∧
      (compileAfter options history earlier u next).1.history = history := by
  rw [compileAfter_eq]
  exact ⟨rfl, rfl⟩

def compileAll (options : Options) (history : List Declarations) (earlier : List Bodies) :
    List Source.Unit → Fresh (List Compilation)
  | [] => return []
  | u :: us => do
    let c ← compileAfter options history earlier u
    return c :: (← compileAll options (c.declarations :: history) c.program.units us)

def boundAll (options : Options) (history : List Declarations) (earlier : List Bodies) :
    List Source.Unit → Nat → List BoundUnit
  | [], _ => []
  | u :: us, next =>
    let c := compileAfter options history earlier u next
    (bindUnit options.scriptMode options.file history u next).1 ::
      boundAll options (c.1.declarations :: history) c.1.program.units us c.2

def boundChain (options : Options) (us : List Source.Unit) (next : Nat) : List BoundUnit :=
  boundAll options [] [] us next

def generationsAfter (options : Options) (history : List Declarations) (earlier : List Bodies) :
    List Source.Unit → Nat → List Generation
  | [], _ => []
  | u :: us, next =>
    let c := compileAfter options history earlier u next
    ⟨u, next, c.1⟩ :: generationsAfter options (c.1.declarations :: history) c.1.program.units us c.2

def generations (options : Options) (us : List Source.Unit) (next : Nat) : List Generation :=
  generationsAfter options [] [] us next

theorem compileAll_cons (options : Options) (history : List Declarations) (earlier : List Bodies)
    (u : Source.Unit) (us : List Source.Unit) (next : Nat) :
    compileAll options history earlier (u :: us) next =
      let c := compileAfter options history earlier u next
      let rest := compileAll options (c.1.declarations :: history) c.1.program.units us c.2
      (c.1 :: rest.1, rest.2) := rfl

theorem continueAll_eq (us : List Source.Unit) (c : Compilation) (next : Nat) :
    c.continueAll us next =
      compileAll c.options (c.declarations :: c.history) c.program.units us next := by
  induction us generalizing c next with
  | nil => rfl
  | cons u us ih =>
    have same := compileAfter_options c.options (c.declarations :: c.history) c.program.units u next
    cases compiled : c.continueWith u next with
    | mk d after =>
      have asAfter : compileAfter c.options (c.declarations :: c.history) c.program.units u next =
        (d, after) := compiled
      rw [asAfter] at same
      have rest := ih d after
      rw [same.1, same.2] at rest
      simp only [continueAll, compileAll, bind, StateT.bind, compiled, asAfter, rest]

/-- A chain is compiled unit by unit, from nothing on. -/
theorem chain_eq_compileAll (options : Options) (us : List Source.Unit) (next : Nat) :
    chain options us next = compileAll options [] [] us next := by
  cases us with
  | nil => rfl
  | cons u us =>
    have same := compileAfter_options options [] [] u next
    cases compiled : compile options u next with
    | mk d after =>
      have asAfter : compileAfter options [] [] u next = (d, after) := compiled
      rw [asAfter] at same
      have rest := continueAll_eq us d after
      rw [same.1, same.2] at rest
      simp only [chain, compileAll, bind, StateT.bind, compiled, asAfter, rest]

section

variable {options : Options} (us : List Source.Unit) {history : List Declarations}
  {earlier : List Bodies} {next : Nat}

theorem map_compiled_generationsAfter :
    (generationsAfter options history earlier us next).map Generation.compiled =
      (compileAll options history earlier us next).1 := by
  induction us generalizing history earlier next with
  | nil => rfl
  | cons u us ih => exact congrArg (List.cons _) ih

theorem map_bound_generationsAfter :
    (generationsAfter options history earlier us next).map Generation.bound =
      boundAll options history earlier us next := by
  induction us generalizing history earlier next with
  | nil => rfl
  | cons u us ih => exact congrArg (List.cons _) ih

/-- Units in a row: `I` holds of what the first one is compiled behind, and each unit hands it on, at
least if the unit is as `E` says. Then each of the units has what follows for one of them. -/
theorem forall_mem_generationsAfter {I : List Declarations → List Bodies → Nat → Prop}
    {E P : Generation → Prop}
    (each : ∀ {history earlier next} (u : Source.Unit), I history earlier next →
      let c := compileAfter options history earlier u next
      E ⟨u, next, c.1⟩ → P ⟨u, next, c.1⟩ ∧ I (c.1.declarations :: history) c.1.program.units c.2)
    (start : I history earlier next)
    (given : ∀ g ∈ generationsAfter options history earlier us next, E g) :
    ∀ g ∈ generationsAfter options history earlier us next, P g := by
  induction us generalizing history earlier next with
  | nil => exact List.forall_mem_nil _
  | cons u us ih =>
    obtain ⟨first, rest⟩ := List.forall_mem_cons.1 given
    obtain ⟨unit, handedOn⟩ := each u start first
    exact List.forall_mem_cons.2 ⟨unit, ih handedOn rest⟩

/-- The same of the units as they are compiled. -/
theorem forall_mem_compileAll {I : List Declarations → List Bodies → Nat → Prop}
    {E P : Compilation → Prop}
    (each : ∀ {history earlier next} (u : Source.Unit), I history earlier next →
      let c := compileAfter options history earlier u next
      E c.1 → P c.1 ∧ I (c.1.declarations :: history) c.1.program.units c.2)
    (start : I history earlier next)
    (given : ∀ c ∈ (compileAll options history earlier us next).1, E c) :
    ∀ c ∈ (compileAll options history earlier us next).1, P c := by
  rw [← map_compiled_generationsAfter, List.forall_mem_map] at given ⊢
  exact forall_mem_generationsAfter us each start given

/-- The same of the units as they are bound. -/
theorem forall_mem_boundAll {I : List Declarations → Prop} {P : BoundUnit → Prop}
    (each : ∀ {history} (u : Source.Unit) (next : Nat), I history →
      let b := (bindUnit options.scriptMode options.file history u next).1
      P b ∧ I (b.declarations :: history))
    (start : I history) : ∀ b ∈ boundAll options history earlier us next, P b := by
  rw [← map_bound_generationsAfter, List.forall_mem_map]
  exact forall_mem_generationsAfter (I := fun history _ _ => I history) (E := fun _ => True) us
    (fun u holds _ => each u _ holds) start fun _ _ => trivial

end

end Compilation

end ScriptLang
