import Mathlib.Data.List.Flatten
import ScriptLang.Proofs.BindingNumbers
import ScriptLang.Proofs.ChainSafe
import ScriptLang.Proofs.SettledCode

/-! Whatever the source text, a chain of units is compiled to flat bodies that define each
label once and jump to no label but their own. -/

namespace ScriptLang

/-- A body of flat statements that jumps to no label but its own. -/
structure Body.SelfContained (body : Body) : Prop where
  isFlat : body.isFlat = true
  targets : ∀ s ∈ body, ∀ l ∈ s.targets, l.id ∈ definitions body

namespace Body

theorem lower_selfContained {body : Body} (jumps : Stmt.AllJumpWithin [] body) (returns : Ty)
    (n : Nat) : (body.lower returns n).1.SelfContained :=
  ⟨isFlat_of_isSettled (lower_isSettled returns body n), lower_targets jumps returns n⟩

/-- What is left without unreachable code stands in the same order as before. -/
theorem removeUnreachable_sublist (body : Body) : body.removeUnreachable.Sublist body := by
  conv => rhs; rw [← text_blocks body]
  rw [removeUnreachable_eq]
  exact List.filter_sublist.flatMap Block.statements

theorem SelfContained.removeUnreachable {body : Body} (whole : body.SelfContained) :
    body.removeUnreachable.SelfContained where
  isFlat := List.all_eq_true.2 fun _ kept =>
    List.all_eq_true.1 whole.isFlat _ (mem_of_mem_removeUnreachable kept)
  targets := removeUnreachable_targets whole.targets

end Body

/-- Numbers may change their order. -/
theorem Minted.swap {low high : Nat} {others a b : List Nat}
    (minted : Minted low high (others ++ a ++ b)) : Minted low high (others ++ b ++ a) := by
  apply minted.perm
  rw [List.append_assoc, List.append_assoc]
  exact List.perm_append_comm.append_left others

/-- Lowering defines the labels that the statements bring along, and new ones. -/
theorem Minted.lower {low n : Nat} {others : List Nat} {body : Body}
    (minted : Minted low n (others ++ Stmt.ownLabelsOf body)) (returns : Ty) :
    Minted low (body.lower returns n).2 (others ++ definitions (body.lower returns n).1) := by
  have le := body.le_lower returns n
  obtain ⟨_, apart, disjoint⟩ := List.nodup_append.1 minted.nodup
  obtain ⟨nodup, within⟩ := Stmt.lowerAll_definesOnce body n
    (fun l member => (minted.within l (List.mem_append_right others member)).2) apart
  have same : definitions (body.lower returns n).1 = definitions (Stmt.lowerAll body n).1 :=
    Body.definitions_close returns _
  have below := minted.le
  rw [same]
  refine ⟨Nat.le_trans below le, ?_, ?_⟩
  · apply List.nodup_append.2
    refine ⟨(List.nodup_append.1 minted.nodup).1, nodup, fun id member other defined => ?_⟩
    rcases within other defined with own | new
    · exact disjoint id member other own
    · have := minted.within id (List.mem_append_left _ member)
      omega
  · intro id member
    rcases List.mem_append.1 member with old | defined
    · have := minted.within id (List.mem_append_left _ old)
      omega
    · rcases within id defined with own | new
      · have := minted.within id (List.mem_append_right others own)
        omega
      · exact ⟨Nat.le_trans below new.1, new.2⟩

def Bodies.definitions (bodies : Bodies) : List Nat :=
  bodies.flatMap fun p => ScriptLang.definitions p.2

namespace Compilation

variable {options : Options} {low : Nat}

theorem lowerBodies_minted {file : Option String} {u : Source.Unit} {bound : List (Fn × Body)}
    {n : Nat} {others : List Nat} (minted : Minted low n (others ++ Binding.ownLabels bound)) :
    Minted low (lowerBodies options file u bound n).2
      (others ++ (lowerBodies options file u bound n).1.1.definitions) := by
  induction bound generalizing n others with
  | nil => exact minted
  | cons p bound ih =>
    obtain ⟨f, body⟩ := p
    rw [lowerBodies_cons]
    have first : Minted low n (others ++ Binding.ownLabels bound ++ Stmt.ownLabelsOf body) := by
      apply Minted.swap
      rw [List.append_assoc]
      exact minted
    have lowered := (first.lower f.returns).swap
    have kept : Minted low (body.lower f.returns n).2
        (others ++ definitions (if options.removeUnreachable then
          (body.lower f.returns n).1.removeUnreachable else (body.lower f.returns n).1) ++
          Binding.ownLabels bound) := by
      split
      · apply lowered.sublist
        apply List.Sublist.append_right
        exact ((Body.removeUnreachable_sublist _).filterMap _).append_left others
      · exact lowered
    have rest := ih kept
    rw [List.append_assoc] at rest
    exact rest

theorem lowerBodies_selfContained {file : Option String} {u : Source.Unit}
    {bound : List (Fn × Body)} {n : Nat} (jumps : ∀ p ∈ bound, Stmt.AllJumpWithin [] p.2) :
    ∀ p ∈ (lowerBodies options file u bound n).1.1, p.2.SelfContained := by
  intro q member
  obtain ⟨p, isBound, lowers⟩ := exists_lowersTo member
  exact lowers.holds (fun n _ _ => Body.lower_selfContained (jumps p isBound) p.1.returns n)
    fun _ whole => whole.removeUnreachable

theorem compileAfter_minted {history : List Declarations} {earlier : List Bodies} {u : Source.Unit}
    {next : Nat} {others : List Nat} (minted : Minted low next others) :
    Minted low (compileAfter options history earlier u next).2
      (others ++ (compileAfter options history earlier u next).1.program.bodies.definitions) :=
  lowerBodies_minted (bindUnit_minted minted options.scriptMode options.file history u)

theorem compileAfter_selfContained {history : List Declarations} {earlier : List Bodies}
    {u : Source.Unit} {next : Nat} :
    ∀ p ∈ (compileAfter options history earlier u next).1.program.bodies, p.2.SelfContained :=
  lowerBodies_selfContained (bindUnit_tracked_anyway options.scriptMode options.file u).jumps

theorem continueAll_minted (us : List Source.Unit) (c : Compilation) {next : Nat}
    {others : List Nat} (minted : Minted low next others) :
    Minted low (c.continueAll us next).2
      (others ++ (c.continueAll us next).1.flatMap fun d => d.program.bodies.definitions) := by
  induction us generalizing c next others with
  | nil => exact (List.append_nil others).symm ▸ minted
  | cons u us ih =>
    have first : Minted low (c.continueWith u next).2
        (others ++ (c.continueWith u next).1.program.bodies.definitions) :=
      compileAfter_minted minted
    have rest := ih (c.continueWith u next).1 first
    rw [List.append_assoc] at rest
    exact rest

/-- What holds of every unit that is compiled behind others holds throughout a chain. -/
theorem forall_mem_chain {P : Compilation → Prop} (options : Options) (us : List Source.Unit)
    (next : Nat)
    (each : ∀ options history earlier u next, P (compileAfter options history earlier u next).1) :
    ∀ c ∈ (chain options us next).1, P c := by
  rw [chain_eq_compileAll]
  exact forall_mem_compileAll us (I := fun _ _ _ => True) (E := fun _ => True)
    (fun u _ _ => ⟨each _ _ _ u _, trivial⟩) trivial fun _ _ => trivial

/-- Labels of compiled code: however many mistakes its units have, every body of a chain is
flat, no label is defined twice anywhere in the chain, and every jump leads to a label that its
own body defines. -/
theorem chain_labels (options : Options) (us : List Source.Unit) (next : Nat) :
    (∀ c ∈ (chain options us next).1, ∀ p ∈ c.program.bodies, p.2.isFlat = true) ∧
    ((chain options us next).1.flatMap fun c => c.program.bodies.definitions).Nodup ∧
    ∀ c ∈ (chain options us next).1, ∀ p ∈ c.program.bodies,
      ∀ s ∈ p.2, ∀ l ∈ s.targets, l.id ∈ definitions p.2 := by
  have whole : ∀ c ∈ (chain options us next).1, ∀ p ∈ c.program.bodies, p.2.SelfContained :=
    forall_mem_chain options us next fun _ _ _ _ _ => compileAfter_selfContained
  refine ⟨fun c unit p member => (whole c unit p member).isFlat, ?_,
    fun c unit p member => (whole c unit p member).targets⟩
  cases us with
  | nil => exact List.nodup_nil
  | cons u us =>
    have first : Minted next (compile options u next).2
        ([] ++ (compile options u next).1.program.bodies.definitions) :=
      compileAfter_minted (.nil (Nat.le_refl next))
    exact (continueAll_minted us (compile options u next).1 first).nodup

end Compilation

end ScriptLang
