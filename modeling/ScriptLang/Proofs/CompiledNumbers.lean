import ScriptLang.Proofs.BoundChains

/-! The functions that a unit compiles have fresh numbers: none is that of a function of an earlier
unit, and all lie below the number behind the unit. -/

namespace ScriptLang

section

variable {scriptMode : Bool} {file : Option String} {history : List Declarations}
  {u : Source.Unit} {next : Nat}

/-- The functions that a unit brings along have new numbers. -/
theorem bindUnit_newFns :
    ∀ f ∈ (bindUnit scriptMode file history u next).1.bodies.map Prod.fst, next ≤ f.id := by
  intro f member
  by_contra older
  -- An older function with this number, but not the same one, would be taken for it.
  let other : Fn := { f with declaration := some (f.declaration.getD 0 + 1) }
  have differs : f ≠ other := by
    intro same
    have declaration := congrArg Fn.declaration same
    cases given : f.declaration <;> simp [other, given] at declaration
  have census : Census Fn.id (· = other) next := by
    refine ⟨?_, fun a b isA isB _ => isA.trans isB.symm⟩
    rintro a rfl
    exact Nat.lt_of_not_le older
  obtain ⟨more, wider, census', knows⟩ :=
    @bindUnit_trackedFn scriptMode file history u next _ census
  exact differs (census'.unique f other (knows f member) (wider other rfl) rfl)

theorem bindUnit_fns_lt :
    ∀ f ∈ (bindUnit scriptMode file history u next).1.bodies.map Prod.fst,
      f.id < (bindUnit scriptMode file history u next).2 := by
  have census : Census Fn.id (fun _ : Fn => False) next :=
    ⟨fun _ => False.elim, fun _ _ => False.elim⟩
  obtain ⟨more, _, census', knows⟩ := @bindUnit_trackedFn scriptMode file history u next _ census
  exact fun f member => census'.below f (knows f member)

end

namespace Compilation

variable {options : Options} {history : List Declarations} {units : List Bodies} {next : Nat}
  {u : Source.Unit}

theorem compileAfter_keys : (compileAfter options history units u next).1.program.bodies.map Prod.fst =
    (bindUnit options.scriptMode options.file history u next).1.bodies.map Prod.fst := by
  rw [compileAfter_eq]
  exact lowerBodies_keys _ _

theorem next_le_compileAfter : next ≤ (compileAfter options history units u next).2 := by
  have minted := bindUnit_mintsVars (.nil (Nat.le_refl next)) options.scriptMode options.file
    history u
  exact Nat.le_trans minted.le (le_compileAfter options history units u next)

/-- All functions with bodies have numbers below the next one, those of the unit included. -/
theorem below_compileAfter (below : ∀ f, HasBody units f → f.id < next) :
    ∀ f, HasBody (compileAfter options history units u next).1.program.units f →
      f.id < (compileAfter options history units u next).2 := by
  rintro f ⟨body, member⟩
  rcases List.mem_append.1 member with new | old
  · have key : f ∈ (compileAfter options history units u next).1.program.bodies.map Prod.fst :=
      List.mem_map_of_mem new
    rw [compileAfter_keys] at key
    exact Nat.lt_of_lt_of_le (bindUnit_fns_lt f key) (le_compileAfter options history units u next)
  · exact Nat.lt_of_lt_of_le (below f ⟨body, old⟩) next_le_compileAfter

end Compilation

end ScriptLang
