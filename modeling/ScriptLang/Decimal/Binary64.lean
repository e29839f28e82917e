/-! A finite number is `± m · 2^q` for whole `m` and `q`. On that view the remainder of
a division, the conversions to and from integers, and the choice of digits in
`ScriptLang.Decimal.Shortest` are exact arithmetic on whole numbers. -/

namespace ScriptLang.Decimal

inductive Binary64 where
  | nan
  | infinite (negative : Bool)
  | finite (negative : Bool) (mantissa : Nat) (exponent : Int)
  deriving DecidableEq, Repr

def pow2 (n : Nat) : Nat := Nat.pow 2 n

def leastMantissa : Nat := 0x10000000000000

def signWeight : Nat := 0x8000000000000000

def Binary64.ofBits (bits : Nat) : Binary64 :=
  let negative := bits / signWeight % 2 == 1
  let biased : Nat := bits / leastMantissa % 2048
  let fraction : Nat := bits % leastMantissa
  if biased = 2047 then
    if fraction = 0 then .infinite negative else .nan
  else if biased = 0 then .finite negative fraction (-1074)
  else .finite negative (leastMantissa + fraction) (biased - 1075)

def Binary64.ofFloat (x : Float) : Binary64 := .ofBits x.toBits.toNat

/-- The bits of `± m · 2^q`, for `m` of at most 53 bits and `q` not below `-1074` whose
value is in range: the mantissa is shifted up until it fills its 53 bits, or the least
exponent is reached. -/
def exactBits (negative : Bool) (m : Nat) (q : Int) : Nat :=
  let sign := if negative then signWeight else 0
  let room := min (52 - m.log2) (q + 1074).toNat
  let filled := m * pow2 room
  if filled < leastMantissa then sign + filled
  else sign + (q - room + 1075).toNat * leastMantissa + (filled - leastMantissa)

def exactFloat (negative : Bool) (m : Nat) (q : Int) : Float :=
  .ofBits (exactBits negative m q).toUInt64

/-- The remainder of a division whose quotient is cut toward zero. It is exact and
has the sign of the dividend. -/
def remainder (x y : Float) : Float :=
  match Binary64.ofFloat x, Binary64.ofFloat y with
  | .finite s m q, .finite _ n r =>
    if n = 0 then 0.0 / 0.0
    else
      let low := min q r
      exactFloat s (m * pow2 (q - low).toNat % (n * pow2 (r - low).toNat)) low
  | .finite _ _ _, .infinite _ => x
  | _, _ => 0.0 / 0.0

/-- The part before the point, held to the range of the integers; zero for no number. -/
def truncate (x : Float) : Int64 :=
  match Binary64.ofFloat x with
  | .nan => 0
  | .infinite negative => if negative then Int64.minValue else Int64.maxValue
  | .finite negative m q =>
    let size : Nat := m * pow2 q.toNat / pow2 (-q).toNat
    Int64.ofIntClamp (if negative then -(size : Int) else size)

/-- The nearest number to an integer; of two equally near the one with an even mantissa. -/
def ofInt64 (n : Int64) : Float := Float.ofInt n.toInt

end ScriptLang.Decimal
