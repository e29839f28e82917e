import ScriptLang.Decimal.Integer

/-! A sign may come first. Then stands `inf`, `infinity` or `nan` in any case, or a
row of digits, which may hold one point, and may be followed by an exponent. -/

namespace ScriptLang.Decimal

structure Scientific where
  digits : Nat
  exponent : Int
  deriving DecidableEq, Repr

def readExponent? : List Char → Option Int
  | [] => some 0
  | c :: cs => if c = 'e' ∨ c = 'E' then readInt? cs else none

/-- Digits with at most one point among them, before it or after it, then an exponent. -/
def readScientific? (cs : List Char) : Option Scientific :=
  let whole := cs.takeWhile isDigit
  let rest := cs.dropWhile isDigit
  let (places, rest) :=
    match rest with
    | '.' :: more => (more.takeWhile isDigit, more.dropWhile isDigit)
    | _ => ([], rest)
  match readNat? (whole ++ places), readExponent? rest with
  | some d, some e => some ⟨d, e - places.length⟩
  | _, _ => none

/-- The nearest floating-point number. A decimal far beyond the largest number, or far
below the least, is settled by its number of digits alone. -/
def Scientific.toFloat (s : Scientific) : Float :=
  if s.digits = 0 then 0.0
  else
    let size := s.exponent + (writeNat s.digits).length
    if 400 < size then 1.0 / 0.0
    else if size < -400 then 0.0
    else Float.ofScientific s.digits (s.exponent < 0) s.exponent.natAbs

def readMagnitude? (cs : List Char) : Option Float :=
  let name := String.ofList (cs.map Char.toLower)
  if name = "inf" ∨ name = "infinity" then some (1.0 / 0.0)
  else if name = "nan" then some (0.0 / 0.0)
  else (readScientific? cs).map Scientific.toFloat

def readFloat? : List Char → Option Float
  | '-' :: cs => (readMagnitude? cs).map fun x => -x
  | '+' :: cs => readMagnitude? cs
  | cs => readMagnitude? cs

end ScriptLang.Decimal
