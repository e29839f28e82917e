import Mathlib.Algebra.GroupWithZero.Nat
import Mathlib.Algebra.Order.BigOperators.Group.List
import Mathlib.Algebra.Order.Group.Nat
import Mathlib.Data.List.Pairwise
import ScriptLang.Lowering
import ScriptLang.Proofs.Mentions

/-! Symbols are told apart by their numbers, and nothing else depends on those. A renaming gives the
symbols of typed code other numbers. What code says of itself, its types and its known values
among it, is the same under any numbers. The names of variables matter as little once names are
resolved, so a relabelling may change these as well. -/

namespace ScriptLang

/-- Other numbers for symbols. Those of builtins need not stay apart, for a builtin is known by what
it does. -/
structure Renaming where
  own : Nat → Nat
  builtin : Nat → Nat
  injective : Function.Injective own

namespace Renaming

variable (ρ : Renaming)

@[simp] theorem own_eq_iff {i j : Nat} : ρ.own i = ρ.own j ↔ i = j := ρ.injective.eq_iff

/-- The `k` numbers from `n` on become those from `n'` on, in the same order. -/
def Shifts (n n' k : Nat) : Prop := ∀ i < k, ρ.own (n + i) = n' + i

variable {ρ} {n n' j k : Nat}

theorem Shifts.front (shifts : ρ.Shifts n n' (j + k)) : ρ.Shifts n n' j :=
  fun i bound => shifts i (Nat.lt_add_right k bound)

theorem Shifts.back (shifts : ρ.Shifts n n' (j + k)) : ρ.Shifts (n + j) (n' + j) k := by
  intro i bound
  rw [Nat.add_assoc, Nat.add_assoc]
  exact shifts (j + i) (by omega)

theorem Shifts.first (shifts : ρ.Shifts n n' (k + 1)) : ρ.own n = n' := shifts 0 (Nat.succ_pos k)

theorem Shifts.part {m m' : Nat} (shifts : ρ.Shifts n n' k)
    (start : n ≤ m ∧ m + n' = m' + n) (stop : m + j ≤ n + k) : ρ.Shifts m m' j := by
  intro i bound
  have inside := shifts (m - n + i) (by omega)
  rw [show n + (m - n + i) = m + i by omega] at inside
  omega

structure Fixes (ρ : Renaming) (next : Nat) : Prop where
  own : ∀ id < next, ρ.own id = id
  builtin : ∀ id, ρ.builtin id = id

theorem Fixes.le {next later : Nat} (fixes : ρ.Fixes later) (le : next ≤ later) : ρ.Fixes next :=
  ⟨fun id bound => fixes.own id (Nat.lt_of_lt_of_le bound le), fixes.builtin⟩

theorem Fixes.shifts {next : Nat} (fixes : ρ.Fixes next) (within : n + k ≤ next) : ρ.Shifts n n k :=
  fun i bound => fixes.own (n + i) (by omega)

end Renaming

/-- A row of numbers that gets another place. -/
structure Move where
  source : Nat
  target : Nat
  length : Nat

namespace Move

/-- The first of two rows of numbers, which start at `i` and `j`, ends before the second one starts,
or the other way round. -/
def Apart (i k j l : Nat) : Prop := i + k ≤ j ∨ j + l ≤ i

def takes (id : Nat) (m : Move) : Bool := m.source ≤ id && id < m.source + m.length

def moveAll (moves : List Move) (id : Nat) : Nat :=
  match moves.find? (takes id) with
  | some m => m.target + (id - m.source)
  | none => (moves.map fun m => m.target + m.length).sum + id

variable {moves : List Move}

theorem find?_takes {id : Nat} {m : Move} (found : moves.find? (takes id) = some m) :
    m ∈ moves ∧ m.source ≤ id ∧ id < m.source + m.length := by
  have taken := List.find?_some found
  simp only [takes, Bool.and_eq_true, decide_eq_true_eq] at taken
  exact ⟨List.mem_of_find?_eq_some found, taken⟩

theorem stop_le_sum {m : Move} (member : m ∈ moves) :
    m.target + m.length ≤ (moves.map fun m => m.target + m.length).sum :=
  List.le_sum_of_mem (List.mem_map_of_mem member)

theorem apart_of_pairwise {start : Move → Nat}
    (rows : moves.Pairwise fun a b => Apart (start a) a.length (start b) b.length) {a b : Move}
    (inA : a ∈ moves) (inB : b ∈ moves) (other : a ≠ b) :
    Apart (start a) a.length (start b) b.length :=
  haveI : Std.Symm fun a b : Move => Apart (start a) a.length (start b) b.length :=
    ⟨fun _ _ => Or.symm⟩
  rows.forall inA inB other

/-- Rows that are apart stay apart, so every number gets one of its own. -/
theorem moveAll_injective
    (targets : moves.Pairwise fun a b => Apart a.target a.length b.target b.length) :
    Function.Injective (moveAll moves) := by
  intro i j same
  unfold moveAll at same
  split at same <;> split at same
  next _ m foundI _ m' foundJ =>
    obtain ⟨inM, taken⟩ := find?_takes foundI
    obtain ⟨inM', taken'⟩ := find?_takes foundJ
    by_cases one : m = m'
    · subst one
      omega
    · rcases apart_of_pairwise targets inM inM' one with before | behind <;> omega
  next _ m foundI _ _ =>
    obtain ⟨inM, taken⟩ := find?_takes foundI
    have := stop_le_sum inM
    omega
  next _ _ _ m' foundJ =>
    obtain ⟨inM', taken'⟩ := find?_takes foundJ
    have := stop_le_sum inM'
    omega
  next => omega

/-- Rows of numbers can be moved at will as long as they stay apart. -/
theorem exists_renaming (builtin : Nat → Nat)
    (sources : moves.Pairwise fun a b => Apart a.source a.length b.source b.length)
    (targets : moves.Pairwise fun a b => Apart a.target a.length b.target b.length) :
    ∃ ρ : Renaming, ρ.builtin = builtin ∧ ∀ m ∈ moves, ρ.Shifts m.source m.target m.length := by
  refine ⟨⟨moveAll moves, builtin, moveAll_injective targets⟩, rfl, fun m member i bound => ?_⟩
  have found : moves.find? (takes (m.source + i)) = some m := by
    cases first : moves.find? (takes (m.source + i)) with
    | none =>
      have missed := List.find?_eq_none.1 first m member
      simp [takes, bound] at missed
    | some m' =>
      obtain ⟨inM', taken⟩ := find?_takes first
      by_contra other
      have distinct : m' ≠ m := fun same => other (congrArg some same)
      rcases apart_of_pairwise sources inM' member distinct with before | behind <;> omega
  simp only [moveAll, found]
  omega

end Move

/-- Other numbers for symbols, and other names for variables. The hidden variables that lowering makes
keep their name. -/
structure Relabelling extends Renaming where
  label : String → String
  hidden : label upperBoundName = upperBoundName

def Renaming.plain (ρ : Renaming) : Relabelling := ⟨ρ, fun name => name, rfl⟩

instance : Coe Renaming Relabelling := ⟨Renaming.plain⟩

@[simp] theorem Renaming.toRenaming_plain (ρ : Renaming) : ρ.plain.toRenaming = ρ := rfl

def Var.renumber (number : Nat → Nat) (v : Var) : Var := { v with id := number v.id }

def Fn.renumber (number : Nat → Nat) (f : Fn) : Fn :=
  { f with id := number f.id, parameters := f.parameters.map (Var.renumber number) }

def Var.relabel (label : String → String) (v : Var) : Var := { v with name := label v.name }

def Fn.relabel (label : String → String) (f : Fn) : Fn :=
  { f with parameters := f.parameters.map (Var.relabel label) }

section

variable (κ : Relabelling)

def Var.rename (v : Var) : Var := (v.renumber κ.own).relabel κ.label

def Fn.rename (f : Fn) : Fn :=
  (f.renumber (if f.builtin.isSome then κ.builtin else κ.own)).relabel κ.label

def Label.rename (l : Label) : Label := { l with id := κ.own l.id }

def LoopLabels.rename (labels : LoopLabels) : LoopLabels :=
  ⟨labels.onBreak.rename κ, labels.onContinue.rename κ⟩

def Symbol.rename : Symbol → Symbol
  | .var v => .var (v.rename κ)
  | .fn f => .fn (f.rename κ)

variable (v : Var) (f : Fn)

@[simp] theorem Var.id_rename : (v.rename κ).id = κ.own v.id := rfl
@[simp] theorem Var.ty_rename : (v.rename κ).ty = v.ty := rfl
@[simp] theorem Var.isGlobal_rename : (v.rename κ).isGlobal = v.isGlobal := rfl
@[simp] theorem Var.readOnly_rename : (v.rename κ).readOnly = v.readOnly := rfl
@[simp] theorem Var.constant_rename : (v.rename κ).constant = v.constant := rfl

@[simp] theorem Fn.name_rename : (f.rename κ).name = f.name := rfl
@[simp] theorem Fn.returns_rename : (f.rename κ).returns = f.returns := rfl
@[simp] theorem Fn.builtin_rename : (f.rename κ).builtin = f.builtin := rfl

variable {κ f}

theorem Fn.rename_of_own (own : f.builtin = none) : f.rename κ =
    { f with id := κ.own f.id, parameters := f.parameters.map (Var.rename κ) } := by
  simp [rename, renumber, relabel, own, Function.comp_def, Var.rename]

theorem Fn.id_rename (own : f.builtin = none) : (f.rename κ).id = κ.own f.id := by
  rw [rename_of_own own]

theorem Fn.parameters_rename (own : f.builtin = none) :
    (f.rename κ).parameters = f.parameters.map (Var.rename κ) := by
  rw [rename_of_own own]

theorem Fn.types_rename : (f.rename κ).parameters.map Var.ty = f.parameters.map Var.ty := by
  simp [rename, renumber, relabel, Function.comp_def, Var.renumber, Var.relabel]

end

@[simp] theorem Var.name_rename (ρ : Renaming) (v : Var) : (v.rename ρ).name = v.name := rfl

theorem Var.rename_plain (ρ : Renaming) (v : Var) : v.rename ρ = v.renumber ρ.own := rfl

theorem Fn.rename_plain (ρ : Renaming) (f : Fn) :
    f.rename ρ = f.renumber (if f.builtin.isSome then ρ.builtin else ρ.own) := by
  have same : Var.relabel (fun name => name) = fun v => v := rfl
  show Fn.relabel (fun name => name) _ = _
  rw [relabel, same, List.map_id']
  rfl

variable (κ : Relabelling)

mutual

def Expr.rename : Expr → Expr
  | .error => .error
  | .literal value => .literal value
  | .var v => .var (v.rename κ)
  | .assign v e => .assign (v.rename κ) e.rename
  | .unary op e => .unary op e.rename
  | .binary l op r => .binary l.rename op r.rename
  | .range l r => .range l.rename r.rename
  | .call f args => .call (f.rename κ) (Expr.renameAll args)
  | .convert t e => .convert t e.rename

def Expr.renameAll : List Expr → List Expr
  | [] => []
  | e :: es => e.rename :: Expr.renameAll es

end

mutual

def Stmt.rename : Stmt → Stmt
  | .block body => .block (Stmt.renameAll body)
  | .declare v e => .declare (v.rename κ) (e.rename κ)
  | .ifThen c t => .ifThen (c.rename κ) t.rename
  | .ifElse c t e => .ifElse (c.rename κ) t.rename e.rename
  | .whileDo c body labels => .whileDo (c.rename κ) body.rename (labels.rename κ)
  | .doWhile body c labels => .doWhile body.rename (c.rename κ) (labels.rename κ)
  | .forIn v range body labels => .forIn (v.rename κ) (range.rename κ) body.rename (labels.rename κ)
  | .label l => .label (l.rename κ)
  | .goto l => .goto (l.rename κ)
  | .gotoIf l c value => .gotoIf (l.rename κ) (c.rename κ) value
  | .ret value => .ret (value.map (Expr.rename κ))
  | .expr e => .expr (e.rename κ)

def Stmt.renameAll : List Stmt → List Stmt
  | [] => []
  | s :: ss => s.rename :: Stmt.renameAll ss

end

def Body.rename (body : Body) : Body := body.map (Stmt.rename κ)

theorem Expr.renameAll_eq_map (es : List Expr) : renameAll κ es = es.map (rename κ) := by
  induction es with
  | nil => rfl
  | cons e es ih => rw [renameAll, ih, List.map_cons]

theorem Stmt.renameAll_eq_map (ss : List Stmt) : renameAll κ ss = ss.map (rename κ) := by
  induction ss with
  | nil => rfl
  | cons s ss ih => rw [renameAll, ih, List.map_cons]

section

variable {κ} (e : Expr)

@[simp] theorem Expr.ty_rename (e : Expr) : (e.rename κ).ty = e.ty := by
  cases e with
  | assign v e => exact ty_rename e
  | _ => rfl

@[simp] theorem Expr.isError_rename : (e.rename κ).isError = e.isError := by
  rw [isError, ty_rename, isError]

theorem Expr.hasSideEffects_rename (e : Expr) : (e.rename κ).hasSideEffects = e.hasSideEffects := by
  cases e with
  | unary op e => exact hasSideEffects_rename e
  | convert t e => exact hasSideEffects_rename e
  | binary l op r | range l r =>
    simp only [rename, hasSideEffects, hasSideEffects_rename l, hasSideEffects_rename r]
  | _ => rfl

@[simp] theorem Expr.constant?_rename (e : Expr) : (e.rename κ).constant? = e.constant? := by
  cases e with
  | unary op e => simp only [rename, constant?, constant?_rename e]
  | convert t e => simp only [rename, constant?, constant?_rename e]
  | binary l op r =>
    simp only [rename, constant?, constant?_rename l, constant?_rename r, hasSideEffects_rename l]
  | _ => rfl

@[simp] theorem Expr.constantBool?_rename : (e.rename κ).constantBool? = e.constantBool? := by
  rw [constantBool?, constant?_rename, constantBool?]

end

end ScriptLang
