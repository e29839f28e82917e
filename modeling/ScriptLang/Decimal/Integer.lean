/-! Writing puts no leading zeros and no plus sign. Reading accepts one sign, either
of them, and then at least one digit. -/

namespace ScriptLang.Decimal

def digitValue? (c : Char) : Option Nat :=
  if '0' ≤ c ∧ c ≤ '9' then some (c.toNat - 48) else none

def isDigit (c : Char) : Bool := (digitValue? c).isSome

def readDigits (acc : Nat) : List Char → Option Nat
  | [] => some acc
  | c :: cs =>
    match digitValue? c with
    | some d => readDigits (10 * acc + d) cs
    | none => none

def writeNat (n : Nat) : List Char := Nat.toDigits 10 n

def writeInt : Int → List Char
  | .ofNat n => writeNat n
  | .negSucc n => '-' :: writeNat (n + 1)

def writeInt64 (n : Int64) : List Char := writeInt n.toInt

def readNat? : List Char → Option Nat
  | [] => none
  | cs => readDigits 0 cs

def readInt? : List Char → Option Int
  | '-' :: cs => (readNat? cs).map fun n => -(n : Int)
  | '+' :: cs => (readNat? cs).map fun n => (n : Int)
  | cs => (readNat? cs).map fun n => (n : Int)

theorem readDigits_append (acc : Nat) (cs ds : List Char) :
    readDigits acc (cs ++ ds) = (readDigits acc cs).bind fun n => readDigits n ds := by
  induction cs generalizing acc with
  | nil => rfl
  | cons c cs ih =>
    rw [List.cons_append, readDigits, readDigits]
    split
    next => exact ih _
    next => rfl

theorem digitValue?_digitChar {d : Nat} (h : d < 10) : digitValue? (Nat.digitChar d) = some d := by
  revert d
  decide

/-- A number is read back from its digits. -/
theorem readDigits_writeNat (n : Nat) : readDigits 0 (writeNat n) = some n := by
  unfold writeNat
  induction n using Nat.strongRecOn with
  | ind n ih =>
    by_cases h : n < 10
    · rw [Nat.toDigits_of_lt_base h, readDigits, digitValue?_digitChar h]
      simp [readDigits]
    · have hn : 10 * (n / 10) + n % 10 = n := Nat.div_add_mod n 10
      have hd : n % 10 < 10 := Nat.mod_lt n (by decide)
      have split := Nat.toDigits_append_toDigits (b := 10) (by decide) (show 0 < n / 10 by omega) hd
      rw [hn, Nat.toDigits_of_lt_base hd] at split
      rw [← split, readDigits_append, ih (n / 10) (by omega), Option.bind_some, readDigits,
        digitValue?_digitChar hd]
      simpa [readDigits] using hn

/-- The 64-bit integer that a text denotes; a number out of range denotes none. -/
def readInt64? (cs : List Char) : Option Int64 :=
  match readInt? cs with
  | some n =>
    if Int64.minValue.toInt ≤ n ∧ n ≤ Int64.maxValue.toInt then some (Int64.ofInt n) else none
  | none => none

end ScriptLang.Decimal
