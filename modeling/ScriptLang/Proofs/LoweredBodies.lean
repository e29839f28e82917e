import Mathlib.Data.List.Forall2
import ScriptLang.Compilation
import ScriptLang.Proofs.LoweringLabels
import ScriptLang.Proofs.Unreachable

/-! Each bound body of a unit is lowered by itself, with the numbers behind those that the bodies
before it took, and loses its unreachable code if the options say so. What holds of the code of a
single body from any number on holds of all bodies of the unit. -/

namespace ScriptLang

theorem exists_of_forall₂ {α β : Type} {R : α → β → Prop} {xs : List α} {ys : List β}
    (related : List.Forall₂ R xs ys) {y : β} (member : y ∈ ys) : ∃ x ∈ xs, R x y := by
  induction related with
  | nil => contradiction
  | @cons x _ _ _ first _ ih =>
    rcases List.mem_cons.1 member with rfl | member
    · exact ⟨x, List.mem_cons_self, first⟩
    · obtain ⟨x', within, holds⟩ := ih member
      exact ⟨x', List.mem_cons_of_mem x within, holds⟩

namespace Compilation

/-- A function with its bound body, and with the code that its unit has for it. The numbers that
lowering takes lie between the two bounds. -/
structure LowersTo (low high : Nat) (p q : Fn × Body) : Prop where
  same : q.1 = p.1
  code : ∃ (n : Nat) (removes : Bool), low ≤ n ∧ (p.2.lower p.1.returns n).2 ≤ high ∧
    q.2 = if removes then (p.2.lower p.1.returns n).1.removeUnreachable
      else (p.2.lower p.1.returns n).1

namespace LowersTo

variable {low high : Nat} {p q : Fn × Body}

theorem mono {low' high' : Nat} (lowers : LowersTo low high p q) (le : low' ≤ low)
    (le' : high ≤ high') : LowersTo low' high' p q := by
  obtain ⟨same, n, removes, above, below, code⟩ := lowers
  exact ⟨same, n, removes, Nat.le_trans le above, Nat.le_trans below le', code⟩

/-- What lowered code has and keeps without its unreachable part, the code of the unit has. -/
theorem holds {P : Body → Prop} (lowers : LowersTo low high p q)
    (lowered : ∀ n, low ≤ n → (p.2.lower p.1.returns n).2 ≤ high → P (p.2.lower p.1.returns n).1)
    (kept : ∀ code : Body, P code → P code.removeUnreachable) : P q.2 := by
  obtain ⟨-, n, removes, above, below, code⟩ := lowers
  rw [code]
  cases removes with
  | false => exact lowered n above below
  | true => exact kept _ (lowered n above below)

theorem forall_mem {P : Stmt → Prop} (lowers : LowersTo low high p q)
    (lowered : ∀ n, ∀ s ∈ (p.2.lower p.1.returns n).1, P s) : ∀ s ∈ q.2, P s :=
  lowers.holds (P := fun code => ∀ s ∈ code, P s) (fun n _ _ => lowered n)
    fun _ all s member => all s (Body.mem_of_mem_removeUnreachable member)

end LowersTo

variable {options : Options} {file : Option String} {u : Source.Unit}

theorem lowerBodies_cons (f : Fn) (body : Body) (rest : List (Fn × Body)) (n : Nat) :
    lowerBodies options file u ((f, body) :: rest) n =
      let flat := (body.lower f.returns n).1
      let others := lowerBodies options file u rest (body.lower f.returns n).2
      (((f, if options.removeUnreachable then flat.removeUnreachable else flat) :: others.1.1,
        (if returnsValue f && !flat.allPathsReturn then [missingReturn file u f] else []) ++
          others.1.2), others.2) := rfl

theorem le_lowerBodies (bound : List (Fn × Body)) (n : Nat) :
    n ≤ (lowerBodies options file u bound n).2 := by
  induction bound generalizing n with
  | nil => exact Nat.le_refl n
  | cons p bound ih =>
    rw [lowerBodies_cons]
    exact Nat.le_trans (p.2.le_lower p.1.returns n) (ih _)

/-- The bodies of a unit become its code one by one. -/
theorem lowerBodies_lowers (bound : List (Fn × Body)) (n : Nat) :
    List.Forall₂ (LowersTo n (lowerBodies options file u bound n).2) bound
      (lowerBodies options file u bound n).1.1 := by
  induction bound generalizing n with
  | nil => exact .nil
  | cons p bound ih =>
    obtain ⟨f, body⟩ := p
    rw [lowerBodies_cons]
    refine .cons ⟨rfl, n, options.removeUnreachable, Nat.le_refl n, le_lowerBodies bound _, rfl⟩ ?_
    exact (ih _).imp fun p q lowers => lowers.mono (body.le_lower f.returns n) (Nat.le_refl _)

theorem lowerBodies_keys (bound : List (Fn × Body)) (n : Nat) :
    (lowerBodies options file u bound n).1.1.map Prod.fst = bound.map Prod.fst := by
  rw [← List.forall₂_eq_eq_eq, List.forall₂_map_left_iff, List.forall₂_map_right_iff]
  exact (lowerBodies_lowers bound n).flip.imp fun q p lowers => lowers.same

/-- The code of a unit comes from its bound bodies. -/
theorem exists_lowersTo {bound : List (Fn × Body)} {n : Nat} {q : Fn × Body}
    (member : q ∈ (lowerBodies options file u bound n).1.1) :
    ∃ p ∈ bound, LowersTo n (lowerBodies options file u bound n).2 p q :=
  exists_of_forall₂ (lowerBodies_lowers bound n) member

end Compilation

end ScriptLang
