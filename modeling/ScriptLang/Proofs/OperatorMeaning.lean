import ScriptLang.Proofs.Typing

/-! An operator that a table gives for some types is defined on all values of these types: it gives a
value of its result type, or reports a division of integers by zero. On integers it gives what exact
arithmetic gives, wrapped around to 64 bits, and never reaches an instruction that would trap. -/

namespace ScriptLang

def divide? (l r : Int64) : Option Int64 :=
  if r = 0 then none else some (.ofInt (l.toInt.tdiv r.toInt))

/-- What the quotient cut toward zero leaves over. -/
def remainder? (l r : Int64) : Option Int64 :=
  if r = 0 then none else some (.ofInt (l.toInt.tmod r.toInt))

def IsPlace (count : Int64) : Prop := 0 ≤ count.toInt ∧ count.toInt < 64

instance (count : Int64) : Decidable (IsPlace count) := inferInstanceAs (Decidable (_ ∧ _))

/-- The integer times a power of two. There is none for a count that is no place. -/
def shiftLeft? (l count : Int64) : Option Int64 :=
  if IsPlace count then some (.ofInt (l.toInt * Decimal.pow2 count.toInt.toNat)) else none

/-- The integer divided by a power of two, cut toward the lesser integer. -/
def shiftRight? (l count : Int64) : Option Int64 :=
  if IsPlace count then some (.ofInt (l.toInt / Decimal.pow2 count.toInt.toNat)) else none

/-- The operators on integers by exact arithmetic, the result wrapped around to 64 bits. There is
nothing where an instruction would trap. -/
def BinaryAction.exactInt? (a : BinaryAction) (l r : Int64) : Option (Except OperatorFault Value) :=
  match a with
  | addition => some (.ok (.int (.ofInt (l.toInt + r.toInt))))
  | subtraction => some (.ok (.int (.ofInt (l.toInt - r.toInt))))
  | multiplication => some (.ok (.int (.ofInt (l.toInt * r.toInt))))
  | division =>
    if r = 0 then some (.error .divisionByZero) else (divide? l r).map fun n => .ok (.int n)
  | modulo =>
    if r = 0 then some (.error .divisionByZero) else (remainder? l r).map fun n => .ok (.int n)
  | shiftLeft => (shiftLeft? l (r &&& 63)).map fun n => .ok (.int n)
  | shiftRight => (shiftRight? l (r &&& 63)).map fun n => .ok (.int n)
  | equals => some (.ok (.bool (l.toInt == r.toInt)))
  | notEquals => some (.ok (.bool (l.toInt != r.toInt)))
  | less => some (.ok (.bool (l.toInt < r.toInt)))
  | lessOrEquals => some (.ok (.bool (l.toInt ≤ r.toInt)))
  | greater => some (.ok (.bool (r.toInt < l.toInt)))
  | greaterOrEquals => some (.ok (.bool (r.toInt ≤ l.toInt)))
  | bitwiseAnd | bitwiseOr | bitwiseXor | logicalAnd | logicalOr => some (a.applyInt l r)

def UnaryAction.exactInt (a : UnaryAction) (n : Int64) : Except OperatorFault Value :=
  match a with
  | negation => .ok (.int (.ofInt (-n.toInt)))
  | onesComplement => .ok (.int (.ofInt (-n.toInt - 1)))
  | identity | logicalNegation => a.apply (.int n)

theorem div_eq_ofInt (l r : Int64) : l / r = .ofInt (l.toInt.tdiv r.toInt) :=
  ((Int64.ofInt_eq_iff_bmod_eq_toInt _ _).2 (Int64.toInt_div l r).symm).symm

theorem mod_eq_ofInt (l r : Int64) : l % r = .ofInt (l.toInt.tmod r.toInt) := by
  rw [← Int64.toInt_mod, Int64.ofInt_toInt]

/-- What division says about its two results. -/
structure Divides (l r quotient rest : Int64) : Prop where
  whole : l = quotient * r + rest
  less : rest.toInt.natAbs < r.toInt.natAbs
  sign : rest = 0 ∨ rest.toInt.sign = l.toInt.sign

theorem divides {l r : Int64} (proper : r ≠ 0) : Divides l r (l / r) (l % r) where
  whole := by
    have exact : l.toInt.tdiv r.toInt * r.toInt + l.toInt.tmod r.toInt = l.toInt :=
      Int.tdiv_mul_add_tmod ..
    calc l = .ofInt l.toInt := (Int64.ofInt_toInt l).symm
      _ = .ofInt (l.toInt.tdiv r.toInt) * .ofInt r.toInt + .ofInt (l.toInt.tmod r.toInt) := by
        rw [← Int64.ofInt_mul, ← Int64.ofInt_add, exact]
      _ = l / r * r + l % r := by rw [← div_eq_ofInt, ← mod_eq_ofInt, Int64.ofInt_toInt]
  less := by
    have divisor : r.toInt ≠ 0 := fun zero => proper (Int64.toInt_inj.1 zero)
    rw [Int64.toInt_mod, Int.natAbs_tmod]
    exact Nat.mod_lt _ (Int.natAbs_pos.2 divisor)
  sign := by
    rw [Int64.toInt_mod, Int.sign_tmod]
    by_cases even : r.toInt ∣ l.toInt
    · left
      rw [← Int64.toInt_inj, Int64.toInt_mod, Int.tmod_eq_zero_of_dvd even]
      rfl
    · exact .inr (if_neg even)

theorem isPlace_mask (count : Int64) : IsPlace (count &&& 63) := by
  have low : (count &&& 63).toBitVec.toNat < 64 := by
    rw [Int64.toBitVec_and, BitVec.toNat_and]
    exact Nat.lt_of_le_of_lt Nat.and_le_right (by decide)
  have same : (count &&& 63).toInt = (count &&& 63).toBitVec.toNat :=
    BitVec.toInt_eq_toNat_of_lt (by omega)
  unfold IsPlace
  omega

theorem IsPlace.smod_eq {count : Int64} (place : IsPlace count) :
    count.toBitVec.smod 64 = count.toBitVec := by
  apply BitVec.eq_of_toInt_eq
  rw [BitVec.toInt_smod]
  exact Int.fmod_eq_of_lt place.1 place.2

theorem IsPlace.toNat_eq {count : Int64} (place : IsPlace count) :
    count.toInt.toNat = count.toBitVec.toNat := by
  have natural := BitVec.toInt_eq_toNat_cond count.toBitVec
  have lower : 0 ≤ count.toBitVec.toInt := place.1
  have small := count.toBitVec.isLt
  show count.toBitVec.toInt.toNat = _
  split at natural <;> omega

theorem IsPlace.shiftLeft_eq {count : Int64} (place : IsPlace count) (l : Int64) :
    l <<< count = .ofInt (l.toInt * Decimal.pow2 count.toInt.toNat) := by
  have whole : BitVec.ofInt 64 l.toInt = l.toBitVec := BitVec.ofInt_toInt
  have power : BitVec.ofInt 64 (Decimal.pow2 count.toBitVec.toNat) =
      BitVec.twoPow 64 count.toBitVec.toNat := by
    apply BitVec.eq_of_toNat_eq
    rw [BitVec.toNat_twoPow, BitVec.ofInt_natCast, BitVec.toNat_ofNat]
    rfl
  rw [← Int64.toBitVec_inj, Int64.toBitVec_shiftLeft, place.smod_eq, Int64.toBitVec_ofInt,
    BitVec.ofInt_mul, place.toNat_eq, BitVec.shiftLeft_eq', BitVec.shiftLeft_eq_mul_twoPow, whole,
    power]

theorem IsPlace.shiftRight_eq {count : Int64} (place : IsPlace count) (l : Int64) :
    l >>> count = .ofInt (l.toInt / Decimal.pow2 count.toInt.toNat) := by
  have shifted : (l >>> count).toInt = l.toInt / Decimal.pow2 count.toInt.toNat := by
    show (l >>> count).toBitVec.toInt = _
    rw [Int64.toBitVec_shiftRight, place.smod_eq, BitVec.toInt_sshiftRight', place.toNat_eq,
      Int.shiftRight_eq_div_pow]
    rfl
  rw [← shifted, Int64.ofInt_toInt]

theorem UnaryAction.exactInt_eq (a : UnaryAction) (n : Int64) :
    a.exactInt n = a.apply (.int n) := by
  cases a with
  | identity | logicalNegation => rfl
  | negation => rw [exactInt, Int64.ofInt_neg, Int64.ofInt_toInt, apply]
  | onesComplement =>
    rw [exactInt, Int64.ofInt_sub, Int64.ofInt_neg, Int64.ofInt_toInt, apply, Int64.not_eq_neg_sub]
    rfl

theorem beq_toInt (l r : Int64) : (l.toInt == r.toInt) = (l == r) := by
  rw [Bool.eq_iff_iff, beq_iff_eq, beq_iff_eq, Int64.toInt_inj]

/-- The operators on integers are exact up to multiples of 2^64, and nothing traps. -/
theorem BinaryAction.exactInt?_eq (a : BinaryAction) (l r : Int64) :
    a.exactInt? l r = some (a.applyInt l r) := by
  cases a with
  | bitwiseAnd | bitwiseOr | bitwiseXor | logicalAnd | logicalOr => rfl
  | addition => simp only [exactInt?, applyInt, Int64.ofInt_add, Int64.ofInt_toInt]
  | subtraction => simp only [exactInt?, applyInt, Int64.ofInt_sub, Int64.ofInt_toInt]
  | multiplication => simp only [exactInt?, applyInt, Int64.ofInt_mul, Int64.ofInt_toInt]
  | division =>
    by_cases zero : r = 0
    · simp only [exactInt?, applyInt, zero, if_true]
    · simp only [exactInt?, applyInt, divide?, zero, if_false, ← div_eq_ofInt, Option.map_some]
  | modulo =>
    by_cases zero : r = 0
    · simp only [exactInt?, applyInt, zero, if_true]
    · simp only [exactInt?, applyInt, remainder?, zero, if_false, ← mod_eq_ofInt, Option.map_some]
  | shiftLeft =>
    have place := isPlace_mask r
    simp only [exactInt?, applyInt, shiftLeft?, place, if_true, ← place.shiftLeft_eq,
      Option.map_some]
  | shiftRight =>
    have place := isPlace_mask r
    simp only [exactInt?, applyInt, shiftRight?, place, if_true, ← place.shiftRight_eq,
      Option.map_some]
  | equals => simp only [exactInt?, applyInt, beq_toInt]
  | notEquals => simp only [exactInt?, applyInt, bne, beq_toInt]
  | less | lessOrEquals | greater | greaterOrEquals =>
    simp only [exactInt?, applyInt, Int64.lt_iff_toInt_lt, Int64.le_iff_toInt_le]

theorem UnaryOp.resolve?_mem {token : Source.Kind} {t : Ty} {op : UnaryOp}
    (resolved : resolve? token t = some op) : op ∈ table ∧ op.operand = t := by
  have fits := List.find?_some resolved
  simp only [Bool.and_eq_true, decide_eq_true_eq] at fits
  exact ⟨List.mem_of_find?_eq_some resolved, fits.2⟩

theorem BinaryOp.resolve?_mem {token : Source.Kind} {t u : Ty} {op : BinaryOp}
    (resolved : resolve? token t u = some op) : op ∈ table ∧ op.left = t ∧ op.right = u := by
  have fits := List.find?_some resolved
  simp only [Bool.and_eq_true, decide_eq_true_eq] at fits
  exact ⟨List.mem_of_find?_eq_some resolved, fits.1.2, fits.2⟩

theorem BinaryAction.applyInt_eq_divisionByZero {a : BinaryAction} {l r : Int64} :
    a.applyInt l r = .error .divisionByZero ↔ (a = .division ∨ a = .modulo) ∧ r = 0 := by
  cases a <;> simp [applyInt]

/-- Only the division of integers and its remainder report a division by zero, and only by zero. -/
theorem BinaryAction.apply_eq_divisionByZero {a : BinaryAction} {l r : Value} :
    a.apply l r = .error .divisionByZero ↔
      (a = .division ∨ a = .modulo) ∧ l.ty = .int ∧ r = .int 0 := by
  cases l with
  | int l =>
    cases r with
    | int r => simp [apply, applyInt_eq_divisionByZero, Value.ty]
    | bool | float | string => simp [apply]
  | bool l =>
    cases r with
    | bool r => cases a <;> simp [apply, applyBool, Value.ty]
    | int | float | string => simp [apply, Value.ty]
  | float l =>
    cases r with
    | float r => cases a <;> simp [apply, applyFloat, Value.ty]
    | int | bool | string => simp [apply, Value.ty]
  | string l =>
    cases r with
    | string r => cases a <;> simp [apply, applyString, Value.ty]
    | int | bool | float => simp [apply, Value.ty]

def BinaryOp.DividesByZero (op : BinaryOp) (right : Value) : Prop :=
  op.left = .int ∧ (op.action = .division ∨ op.action = .modulo) ∧ right = .int 0

/-- The operator reports a division by zero if it makes one, and gives a value of its result type
if not. -/
structure BinaryOp.Answers (op : BinaryOp) (left right : Value) : Prop where
  fault : op.DividesByZero right → op.action.apply left right = .error .divisionByZero
  value : ¬ op.DividesByZero right →
    ∃ result, op.action.apply left right = .ok result ∧ result.ty = op.result

theorem BinaryOp.answers {op : BinaryOp} (member : op ∈ table) {left right : Value}
    (leftTyped : left.ty = op.left) (rightTyped : right.ty = op.right) : op.Answers left right where
  fault divides := BinaryAction.apply_eq_divisionByZero.2
    ⟨divides.2.1, leftTyped.trans divides.1, divides.2.2⟩
  value proper := by
    rcases apply_of_mem member leftTyped rightTyped with given | fault
    · exact given
    · obtain ⟨action, isInt, zero⟩ := BinaryAction.apply_eq_divisionByZero.1 fault
      exact absurd ⟨leftTyped.symm.trans isInt, action, zero⟩ proper

/-- Operators found in the tables are defined on all values of their operand types: a unary one
gives a value of its result type, and so does a binary one unless it divides an integer by zero,
which it reports. On integers the result is the exact one up to multiples of 2^64, without a trap,
and division with its remainder is cut toward zero. -/
theorem resolved_operators_answer :
    (∀ token t op, UnaryOp.resolve? token t = some op → ∀ v : Value, v.ty = t →
      ∃ result, op.action.apply v = .ok result ∧ result.ty = op.result) ∧
    (∀ token t u op, BinaryOp.resolve? token t u = some op →
      ∀ l r : Value, l.ty = t → r.ty = u → op.Answers l r) ∧
    (∀ (a : UnaryAction) n, a.exactInt n = a.apply (.int n)) ∧
    (∀ (a : BinaryAction) l r, a.exactInt? l r = some (a.apply (.int l) (.int r))) ∧
    ∀ l r : Int64, r ≠ 0 → ∃ quotient rest,
      BinaryAction.division.apply (.int l) (.int r) = .ok (.int quotient) ∧
      BinaryAction.modulo.apply (.int l) (.int r) = .ok (.int rest) ∧
      Divides l r quotient rest := by
  refine ⟨?_, ?_, UnaryAction.exactInt_eq, BinaryAction.exactInt?_eq, fun l r proper => ?_⟩
  · intro token t op resolved v typed
    obtain ⟨member, operand⟩ := UnaryOp.resolve?_mem resolved
    exact UnaryOp.apply_of_mem member (typed.trans operand.symm)
  · intro token t u op resolved l r leftTyped rightTyped
    obtain ⟨member, left, right⟩ := BinaryOp.resolve?_mem resolved
    exact BinaryOp.answers member (leftTyped.trans left.symm) (rightTyped.trans right.symm)
  · refine ⟨l / r, l % r, ?_, ?_, divides proper⟩ <;>
      simp only [BinaryAction.apply, BinaryAction.applyInt, proper, if_false]

/-- The least integer divided by minus one is itself, as the quotient wraps around, and divided by
zero it gives the fault. -/
theorem leastInteger_divided :
    BinaryOp.resolve? .slash .int .int = some (.combine .int .slash .division) ∧
      (BinaryOp.combine .int .slash .division).DividesByZero (.int 0) ∧
      BinaryAction.division.apply (.int Int64.minValue) (.int 0) = .error .divisionByZero ∧
      (-1 : Int64) ≠ 0 ∧ Divides Int64.minValue (-1) Int64.minValue 0 := by
  obtain ⟨_, binary, _, _, division⟩ := resolved_operators_answer
  have resolved : BinaryOp.resolve? .slash .int .int = some (.combine .int .slash .division) := rfl
  have zero : (BinaryOp.combine .int .slash .division).DividesByZero (.int 0) :=
    ⟨rfl, .inl rfl, rfl⟩
  have proper : (-1 : Int64) ≠ 0 := by decide
  obtain ⟨quotient, rest, divided, left, law⟩ := division Int64.minValue (-1) proper
  have first : Int64.minValue = quotient := by
    simp only [BinaryAction.apply, BinaryAction.applyInt, proper, if_false] at divided
    exact Value.int.inj (Except.ok.inj divided)
  have second : 0 = rest := by
    simp only [BinaryAction.apply, BinaryAction.applyInt, proper, if_false] at left
    exact Value.int.inj (Except.ok.inj left)
  rw [← first, ← second] at law
  exact ⟨resolved, zero, (binary _ _ _ _ resolved _ _ rfl rfl).fault zero, proper, law⟩

end ScriptLang
