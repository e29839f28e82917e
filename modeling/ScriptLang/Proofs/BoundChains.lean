import ScriptLang.Proofs.CompiledLabels
import ScriptLang.Proofs.TypedState

/-! A chain is compiled unit by unit, and each unit is bound before its bodies are lowered. What
the source of a unit says is still to be seen in the bound unit. -/

namespace ScriptLang

namespace Compilation

section

variable (options : Options) (history : List Declarations) (earlier : List Bodies)

theorem le_compileAfter (u : Source.Unit) (next : Nat) :
    (bindUnit options.scriptMode options.file history u next).2 ≤
      (compileAfter options history earlier u next).2 := by
  rw [compileAfter_eq]
  exact le_lowerBodies _ _

/-- The variables of bound units in a row are told apart. -/
theorem boundAll_minted (us : List Source.Unit) {low next : Nat} {old : List Nat}
    (minted : Minted low next old) :
    ∃ high, Minted low high
      (old ++ Binding.ids ((boundAll options history earlier us next).flatMap fun b =>
        Binding.ownVars b.bodies)) := by
  induction us generalizing history earlier next old with
  | nil => exact ⟨next, by simpa [boundAll, Binding.ids] using minted⟩
  | cons u us ih =>
    have first := (bindUnit_mintsVars minted options.scriptMode options.file history u).later
      (le_compileAfter options history earlier u next)
    obtain ⟨high, rest⟩ := ih _ _ first
    refine ⟨high, ?_⟩
    simpa [boundAll, Binding.ids] using rest

/-- In bound units only functions with a name are called. -/
theorem boundAll_declares (us : List Source.Unit) (next : Nat)
    (fns : ∀ d ∈ history, ∀ f ∈ d.fns, f.Declared) :
    ∀ b ∈ boundAll options history earlier us next, Binding.UnitDeclares b := by
  refine forall_mem_boundAll us (I := fun history => ∀ d ∈ history, ∀ f ∈ d.fns, f.Declared)
    (fun u next fns => ?_) fns
  have unit := bindUnit_declares fns options.scriptMode options.file u next
  exact ⟨unit, List.forall_mem_cons.2 ⟨unit.fns, fns⟩⟩

/-- What holds of all bodies of the units in a row, and of those before them, holds of all bodies
that their programs can run. -/
theorem forall_mem_units {Q : Fn × Body → Prop} (us : List Source.Unit) (next : Nat)
    (old : ∀ q ∈ earlier.flatten, Q q)
    (own : ∀ c ∈ (compileAll options history earlier us next).1, ∀ q ∈ c.program.bodies, Q q) :
    ∀ c ∈ (compileAll options history earlier us next).1, ∀ q ∈ c.program.units.flatten, Q q := by
  refine forall_mem_compileAll us (I := fun _ earlier _ => ∀ q ∈ earlier.flatten, Q q)
    (fun u old own => ?_) old own
  have units := List.forall_mem_append.2 ⟨own, old⟩
  exact ⟨units, units⟩

end

/-- Units that are compiled in a row without errors behind safe ones are safe, and the variables of
the bound units are told apart from those that lowering makes. -/
theorem compileAll_safe (options : Options) (us : List Source.Unit) {history : List Declarations}
    {earlier : List Bodies} {known : Var → Prop} {next : Nat}
    (linked : Linked history earlier known next)
    (noErrors : ∀ c ∈ (compileAll options history earlier us next).1,
      c.diagnostics.hasErrors = false) :
    ∃ more : Var → Prop, (∀ v, known v → more v) ∧ ToldApart more ∧
      (∀ c ∈ (compileAll options history earlier us next).1, c.Safe more) ∧
      ∀ b ∈ boundAll options history earlier us next, ∀ v, Binding.unitVars b v → more v := by
  obtain ⟨more, wider, census, safe, knows⟩ := compileAll_linked options us linked noErrors
  exact ⟨more, wider, census.unique, safe, knows⟩

/-- A unit of a chain has the body of its entry function itself. -/
theorem entry_within {options : Options} {us : List Source.Unit} {next : Nat} {c : Compilation}
    (unit : c ∈ (chain options us next).1) {entry : Fn} {body : Body}
    (isEntry : c.program.entry = some entry) (found : c.program.body? entry = some body) :
    ∃ f, f.id = entry.id ∧ (f, body) ∈ c.program.bodies := by
  have has : ∀ c ∈ (chain options us next).1, ∀ e, c.program.entry = some e →
      ∃ f ∈ c.program.bodies.map Prod.fst, f.id = e.id := by
    refine forall_mem_chain options us next fun options history earlier u next => ?_
    rw [compileAfter_eq]
    dsimp only
    rw [lowerBodies_keys]
    exact (bindUnit_tracked_anyway options.scriptMode options.file u).entry
  obtain ⟨f, member, same⟩ := has c unit entry isEntry
  obtain ⟨q, within, rfl⟩ := List.mem_map.1 member
  have isFound : (Bodies.body? c.program.bodies entry).isSome = true := by
    rw [Bodies.body?, Option.isSome_map, List.find?_isSome]
    exact ⟨q, within, by simpa using same⟩
  obtain ⟨code, first⟩ := Option.isSome_iff_exists.1 isFound
  have isCode : c.program.body? entry = some code := by
    simp [Program.body?, first]
  obtain rfl := Option.some.inj (found.symm.trans isCode)
  obtain ⟨r, given, rfl⟩ := Option.map_eq_some_iff.1 first
  exact ⟨r.1, by simpa using List.find?_some given, List.mem_of_find?_eq_some given⟩

/-- No body that belongs to the entry function of units without errors takes arguments or gives a
value. -/
theorem compileAll_plainEntry {options : Options} (us : List Source.Unit)
    {history : List Declarations} {earlier : List Bodies} {next : Nat}
    (typed : ∀ d ∈ history, d.Hold Symbol.WellTyped)
    (noErrors : ∀ c ∈ (compileAll options history earlier us next).1,
      c.diagnostics.hasErrors = false) :
    ∀ c ∈ (compileAll options history earlier us next).1, ∀ e, c.program.entry = some e →
      ∀ f ∈ c.program.bodies.map Prod.fst, f.id = e.id → f.parameters = [] ∧ f.returns = .void := by
  refine forall_mem_compileAll us (I := fun history _ _ => ∀ d ∈ history, d.Hold Symbol.WellTyped)
    (fun {history earlier next} u typed unit => ?_) typed noErrors
  have unitTyped := bindUnit_typed typed (compileAfter_noErrors unit).1
  refine ⟨?_, List.forall_mem_cons.2 ⟨unitTyped.declared, typed⟩⟩
  rw [compileAfter_eq]
  dsimp only
  rw [lowerBodies_keys]
  intro e isEntry f member same
  obtain rfl := bindUnit_entry_unique options.scriptMode options.file u isEntry f member same
  exact unitTyped.entry f isEntry

/-- A unit of a chain without errors starts in a body of its own, without arguments and for no
value. -/
theorem chain_entry {options : Options} {us : List Source.Unit} {next : Nat}
    (noErrors : ∀ c ∈ (chain options us next).1, c.diagnostics.hasErrors = false)
    {c : Compilation} (unit : c ∈ (chain options us next).1) {entry : Fn} {body : Body}
    (isEntry : c.program.entry = some entry) (found : c.program.body? entry = some body) :
    ∃ f, f.id = entry.id ∧ (f, body) ∈ c.program.bodies ∧ f.parameters = [] ∧ f.returns = .void := by
  obtain ⟨f, same, member⟩ := entry_within unit isEntry found
  rw [chain_eq_compileAll] at noErrors unit
  have plain := compileAll_plainEntry us (List.forall_mem_nil _) noErrors c unit entry isEntry
  exact ⟨f, same, member, plain f (List.mem_map_of_mem member) same⟩

end Compilation

end ScriptLang
