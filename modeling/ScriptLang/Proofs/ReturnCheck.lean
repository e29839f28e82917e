import ScriptLang.Proofs.UnreachedCode
import ScriptLang.Source.Sketch

/-! The check for a `return` on every way looks at the flat code of a function. It says what the
structure of the statements says: the function can end without a value just if its statements can
complete. So these functions of a unit are reported, and no others. -/

namespace ScriptLang

theorem bindUnit_shape (scriptMode : Bool) (file : Option String) (history : List Declarations)
    (u : Source.Unit) (next : Nat) :
    ∀ p ∈ (bindUnit scriptMode file history u next).1.bodies,
      BoundShape (bindUnit scriptMode file history u next).2 p.2 := by
  intro p member
  obtain ⟨records, _⟩ := bindUnit_recordsConstants scriptMode file history u next p member
  obtain ⟨below, nodup⟩ := Compilation.bindUnit_labels scriptMode file history u next p member
  exact ⟨records, (bindUnit_tracked_anyway scriptMode file u).jumps p member, below, nodup⟩

namespace Compilation

def canMissReturn (p : Fn × Body) : Bool := returnsValue p.1 && Stmt.allComplete p.2

theorem lowerBodies_reports {options : Options} {file : Option String} {u : Source.Unit}
    {bound : List (Fn × Body)} {n : Nat} (shape : ∀ p ∈ bound, BoundShape n p.2) :
    (lowerBodies options file u bound n).1.2 =
      (bound.filter canMissReturn).map fun p => missingReturn file u p.1 := by
  induction bound generalizing n with
  | nil => rfl
  | cons p bound ih =>
    obtain ⟨f, body⟩ := p
    obtain ⟨here, others⟩ := List.forall_mem_cons.1 shape
    have rest := ih fun p member => (others p member).later (body.le_lower f.returns n)
    have same : (returnsValue f && !(body.lower f.returns n).1.allPathsReturn) =
        canMissReturn (f, body) := by
      by_cases givesValue : f.returns = .void
      · simp [canMissReturn, returnsValue, givesValue]
      · simp [canMissReturn, here.allPathsReturn givesValue]
    rw [lowerBodies_cons]
    simp only [rest, same, List.filter_cons]
    split <;> rfl

end Compilation

/-- The check of a function that gives a value fails on its flat code just if the statements of its
body can complete. These functions of a unit are reported, in order, and no others. -/
theorem bindUnit_checksReturns (scriptMode : Bool) (file : Option String)
    (history : List Declarations) (u : Source.Unit) (next : Nat) {n : Nat}
    (later : (bindUnit scriptMode file history u next).2 ≤ n) :
    (∀ p ∈ (bindUnit scriptMode file history u next).1.bodies, p.1.returns ≠ .void →
      ((p.2.lower p.1.returns n).1.allPathsReturn = false ↔ Stmt.allComplete p.2 = true)) ∧
    ∀ options reportFile,
      (Compilation.lowerBodies options reportFile u
          (bindUnit scriptMode file history u next).1.bodies n).1.2 =
        ((bindUnit scriptMode file history u next).1.bodies.filter
          Compilation.canMissReturn).map fun p => Compilation.missingReturn reportFile u p.1 := by
  have shape : ∀ p ∈ (bindUnit scriptMode file history u next).1.bodies, BoundShape n p.2 :=
    fun p member => (bindUnit_shape scriptMode file history u next p member).later later
  refine ⟨fun p member givesValue => ?_, fun options reportFile => ?_⟩
  · rw [(shape p member).allPathsReturn givesValue, Bool.not_eq_false']
  · exact Compilation.lowerBodies_reports shape

namespace EndlessLoop

open Source

/-- ```
function first(n: int): int { while true { if n > 3 { break } return n } }
function second(n: int): int { while true { if n > 3 { continue } return n } }
``` -/
def unit : Source.Unit := (Sketch.Unit.place ⟨none, [
  .function ⟨"first", [("n", "int")], some "int", [.whileDo (.literal (.bool true)) (.block [
    .ifThen (.binary (.name "n") .greater (.literal (.int 3))) (.block [.breakLoop]),
    .ret (some (.name "n"))])]⟩,
  .function ⟨"second", [("n", "int")], some "int", [.whileDo (.literal (.bool true)) (.block [
    .ifThen (.binary (.name "n") .greater (.literal (.int 3))) (.block [.continueLoop]),
    .ret (some (.name "n"))])]⟩]⟩ .start).1

end EndlessLoop

theorem endlessLoop_checked :
    (bindUnit false none [] EndlessLoop.unit 0).1.declarations.diagnostics.hasErrors = false ∧
    (bindUnit false none [] EndlessLoop.unit 0).2 ≤ 30 ∧
    (∀ p ∈ (bindUnit false none [] EndlessLoop.unit 0).1.bodies, p.1.returns ≠ .void ∧
      ((p.2.lower p.1.returns 30).1.allPathsReturn = false ↔ Stmt.allComplete p.2 = true)) ∧
    (bindUnit false none [] EndlessLoop.unit 0).1.bodies.map
      (fun p => (p.1.name, Stmt.allComplete p.2)) = [("first", true), ("second", false)] := by
  have later : (bindUnit false none [] EndlessLoop.unit 0).2 ≤ 30 := by decide +kernel
  have givesValue : ∀ p ∈ (bindUnit false none [] EndlessLoop.unit 0).1.bodies,
      p.1.returns ≠ .void := by decide +kernel
  have checks := (bindUnit_checksReturns false none [] EndlessLoop.unit 0 later).1
  exact ⟨by decide +kernel, later, fun p member => ⟨givesValue p member,
    checks p member (givesValue p member)⟩, by decide +kernel⟩

end ScriptLang
