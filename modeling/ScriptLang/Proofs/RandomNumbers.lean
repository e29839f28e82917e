import ScriptLang.Machine.Host

/-! A step of the generator mixes a state with its own shift three times. Mixing is linear: it takes the
exclusive or of two words to the exclusive or of the mixed words. And a word that is equal to its
own shift is zero. So no two states step to the same one, and since zero steps to itself, a state
that is not zero is never followed by zero. -/

namespace ScriptLang.Generator

variable {w k : Nat} {x y : BitVec w}

theorem eq_zero_of_eq_ushiftRight (pos : 0 < k) (same : x = x >>> k) : x = 0#w := by
  have smaller : x.toNat = x.toNat / 2 ^ k := by
    rw [← Nat.shiftRight_eq_div_pow, ← BitVec.toNat_ushiftRight, ← same]
  refine BitVec.eq_of_toNat_eq (Nat.eq_zero_of_not_pos fun some => ?_)
  have less := Nat.div_lt_self some (Nat.one_lt_two_pow (Nat.ne_of_gt pos))
  omega

theorem eq_zero_of_eq_shiftLeft (pos : 0 < k) (same : x = x <<< k) : x = 0#w := by
  -- A bit is the one `k` places below it, and the lowest `k` bits are zero.
  have bits (i : Nat) : x.getLsbD i = false := by
    induction i using Nat.strongRecOn with
    | ind i ih =>
      rw [same, BitVec.getLsbD_shiftLeft]
      by_cases low : i < k
      · simp [low]
      · simp [ih (i - k) (by omega)]
  exact BitVec.eq_of_getLsbD_eq fun i _ => (bits i).trans (BitVec.getLsbD_zero).symm

/-- The word with its bits mixed into those `k` places below them. -/
def mixRight (k : Nat) (x : BitVec w) : BitVec w := x ^^^ (x >>> k)

def mixLeft (k : Nat) (x : BitVec w) : BitVec w := x ^^^ (x <<< k)

theorem toBitVec_step (x : UInt64) :
    (step x).toBitVec = mixRight 27 (mixLeft 25 (mixRight 12 x.toBitVec)) := rfl

theorem mixRight_xor (k : Nat) (x y : BitVec w) :
    mixRight k (x ^^^ y) = mixRight k x ^^^ mixRight k y := by
  rw [mixRight, BitVec.ushiftRight_xor_distrib, mixRight, mixRight]
  ac_rfl

theorem mixLeft_xor (k : Nat) (x y : BitVec w) :
    mixLeft k (x ^^^ y) = mixLeft k x ^^^ mixLeft k y := by
  rw [mixLeft, BitVec.shiftLeft_xor_distrib, mixLeft, mixLeft]
  ac_rfl

theorem mixRight_injective (pos : 0 < k) (same : mixRight k x = mixRight k y) : x = y := by
  have zero : mixRight k (x ^^^ y) = 0#w := by rw [mixRight_xor, same, BitVec.xor_self]
  exact BitVec.xor_eq_zero_iff.1 (eq_zero_of_eq_ushiftRight pos (BitVec.xor_eq_zero_iff.1 zero))

theorem mixLeft_injective (pos : 0 < k) (same : mixLeft k x = mixLeft k y) : x = y := by
  have zero : mixLeft k (x ^^^ y) = 0#w := by rw [mixLeft_xor, same, BitVec.xor_self]
  exact BitVec.xor_eq_zero_iff.1 (eq_zero_of_eq_shiftLeft pos (BitVec.xor_eq_zero_iff.1 zero))

theorem step_injective {x y : UInt64} (same : step x = step y) : x = y := by
  rw [← UInt64.toBitVec_inj, toBitVec_step, toBitVec_step] at same
  have second := mixRight_injective (by decide) same
  have first := mixLeft_injective (by decide) second
  exact UInt64.toBitVec_inj.1 (mixRight_injective (by decide) first)

theorem step_ne_zero {x : UInt64} (notZero : x ≠ 0) : step x ≠ 0 :=
  -- Zero is the step of zero.
  fun zero => notZero (step_injective (zero.trans (show 0 = step 0 by decide)))

variable {g : Generator} {max : Int64}

theorem below_of_not_pos (notPos : max ≤ 0) : g.below max = (0, g) := by rw [below, if_pos notPos]

theorem below_of_pos (pos : 0 < max) : g.below max =
    ((step g.state * multiplier % max.toUInt64).toInt64, ⟨step g.state⟩) := by
  rw [below, if_neg (Int64.not_le.2 pos)]

/-- A positive number is the same number as a word without a sign. -/
theorem toNat_toUInt64_of_pos (pos : 0 < max) :
    (max.toUInt64.toNat : Int) = max.toInt ∧ 2 * max.toUInt64.toNat < UInt64.size := by
  have positive : 0 < max.toBitVec.toInt := Int64.lt_iff_toInt_lt.1 pos
  have bits := max.toBitVec.toInt_eq_toNat_cond
  have bound : max.toBitVec.toNat < 2 ^ 64 := max.toUInt64.toNat_lt
  show (max.toBitVec.toNat : Int) = max.toBitVec.toInt ∧ 2 * max.toBitVec.toNat < 2 ^ 64
  split at bits <;> omega

/-- A word below a positive number is not negative when it is read with a sign. -/
theorem toInt64_inRange {n : UInt64} (pos : 0 < max) (less : n < max.toUInt64) :
    0 ≤ n.toInt64 ∧ n.toInt64 < max := by
  obtain ⟨same, half⟩ := toNat_toUInt64_of_pos pos
  have less' := UInt64.lt_iff_toNat_lt.1 less
  have small : 2 * n.toNat < UInt64.size := by omega
  have value : n.toInt64.toInt = n.toNat := BitVec.toInt_eq_toNat_of_lt small
  rw [Int64.le_iff_toInt_le, Int64.lt_iff_toInt_lt, value]
  exact ⟨Int.natCast_nonneg _, by omega⟩

theorem below_inRange (pos : 0 < max) : 0 ≤ (g.below max).1 ∧ (g.below max).1 < max := by
  rw [below_of_pos pos]
  refine toInt64_inRange pos (UInt64.lt_iff_toNat_lt.2 ?_)
  have positive : 0 < max.toInt := Int64.lt_iff_toInt_lt.1 pos
  have same := (toNat_toUInt64_of_pos pos).1
  rw [UInt64.toNat_mod]
  exact Nat.mod_lt _ (by omega)

theorem below_ne_zero (notZero : g.state ≠ 0) : (g.below max).2.state ≠ 0 := by
  by_cases pos : 0 < max
  · rw [below_of_pos pos]
    exact step_ne_zero notZero
  · rwa [below_of_not_pos (Int64.not_lt.1 pos)]

theorem seed_ne_zero (n : UInt64) : (seed n).state ≠ 0 := fun zero =>
  absurd (UInt64.or_eq_zero_iff.1 zero).2 (by decide)

def afterCalls (g : Generator) : List Int64 → Generator
  | [] => g
  | max :: rest => (g.below max).2.afterCalls rest

theorem afterCalls_ne_zero (notZero : g.state ≠ 0) (calls : List Int64) :
    (g.afterCalls calls).state ≠ 0 := by
  induction calls generalizing g with
  | nil => exact notZero
  | cons max rest ih => exact ih (below_ne_zero notZero)

/-- Whatever the seed and the calls so far, the state is not zero and the next number is in range:
from zero up to, and not including, a positive `max`, while any other `max` gives zero and leaves
the state as it is. Calls that draw a number never take two states to the same one. -/
theorem calls_stayInRange (n : UInt64) (calls : List Int64) :
    ((seed n).afterCalls calls).state ≠ 0 ∧
      (∀ max, 0 < max → 0 ≤ (((seed n).afterCalls calls).below max).1 ∧
        (((seed n).afterCalls calls).below max).1 < max) ∧
      (∀ max, max ≤ 0 → ((seed n).afterCalls calls).below max = (0, (seed n).afterCalls calls)) ∧
      ∀ (g g' : Generator) (max max' : Int64), 0 < max → 0 < max' → g.state ≠ g'.state →
        (g.below max).2.state ≠ (g'.below max').2.state := by
  refine ⟨afterCalls_ne_zero (seed_ne_zero n) calls, fun _ => below_inRange,
    fun _ => below_of_not_pos, fun g g' max max' pos pos' different same => ?_⟩
  rw [below_of_pos pos, below_of_pos pos'] at same
  exact different (step_injective same)

end ScriptLang.Generator
