import ScriptLang.Decimal.Binary64
import ScriptLang.Decimal.Integer

/-! A number is written with the fewest digits that read back as it. The decimals that
read back as `m · 2^q` fill an interval around it, so the digits are found on the
coarsest grid of powers of ten with a point in that interval. -/

namespace ScriptLang.Decimal

def pow10 (n : Nat) : Nat := Nat.pow 10 n

/-- The decimals that round to one number: those from `low / unit` to `high / unit`,
the ends among them when `closed`. The number itself is `value / unit`. -/
structure RoundingInterval where
  low : Nat
  value : Nat
  high : Nat
  unit : Nat
  closed : Bool
  deriving DecidableEq, Repr

/-- The interval of `m · 2^q`. Half of the gap below is a quarter of the gap above
where `m` is the least mantissa of its exponent. -/
def RoundingInterval.of (m : Nat) (q : Int) : RoundingInterval :=
  let scale := pow2 (q - 2).toNat
  let below := if m = leastMantissa ∧ -1074 < q then 1 else 2
  { low := (4 * m - below) * scale
    value := 4 * m * scale
    high := (4 * m + 2) * scale
    unit := pow2 (2 - q).toNat
    closed := m % 2 = 0 }

def RoundingInterval.holds (i : RoundingInterval) (d : Nat) (k : Int) : Bool :=
  let point := d * pow10 k.toNat * i.unit
  let low := i.low * pow10 (-k).toNat
  let high := i.high * pow10 (-k).toNat
  if i.closed then low ≤ point && point ≤ high else low < point && point < high

/-- The point of the grid of multiples of `10^k` that lies in the interval nearest to
the value, if there is one; of two equally near the larger. -/
def RoundingInterval.onGrid? (i : RoundingInterval) (k : Int) : Option Nat :=
  let value := i.value * pow10 (-k).toNat
  let step := i.unit * pow10 k.toNat
  let d := value / step
  match i.holds d k, i.holds (d + 1) k with
  | true, true => some (if 2 * (value % step) < step then d else d + 1)
  | true, false => some d
  | false, true => some (d + 1)
  | false, false => none

def RoundingInterval.search (i : RoundingInterval) (k : Int) : Nat → Nat × Int
  | 0 => (i.value * pow10 (-k).toNat / (i.unit * pow10 k.toNat), k)
  | tries + 1 =>
    match i.onGrid? k with
    | some d => (d, k)
    | none => search i (k - 1) tries

/-- The fewest digits `d` and the exponent `k` such that `d · 10^k` reads back as
`m · 2^q`. The first grid tried is coarser than the number, and seventeen digits
always suffice. -/
def shortest (m : Nat) (q : Int) : Nat × Int :=
  (RoundingInterval.of m q).search ((m.log2 + q) * 30103 / 100000 + 2) 24

def positional (d : Nat) (k : Int) : List Char :=
  let digits := writeNat d
  if 0 ≤ k then digits ++ List.replicate k.toNat '0'
  else
    let places := (-k).toNat
    if places < digits.length then
      digits.take (digits.length - places) ++ '.' :: digits.drop (digits.length - places)
    else "0.".toList ++ List.replicate (places - digits.length) '0' ++ digits

/-- A number in positional notation: no exponent, no point after a whole number, and
the sign of zero kept. -/
def writeFloat (x : Float) : List Char :=
  match Binary64.ofFloat x with
  | .nan => "NaN".toList
  | .infinite negative => (if negative then "-inf" else "inf").toList
  | .finite negative m q =>
    let sign := if negative then ['-'] else []
    if m = 0 then sign ++ ['0']
    else
      let (d, k) := shortest m q
      sign ++ positional d k

end ScriptLang.Decimal
