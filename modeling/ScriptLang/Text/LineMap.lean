/-! A line starts at offset 0 and after every newline byte. Offsets are 32-bit numbers. A position
belongs to the last line that starts at or before it, also when it lies past the end, and a binary
search among the starts finds that line. -/

namespace ScriptLang

structure LineAndColumn where
  line : Nat
  column : Nat
  deriving DecidableEq, Repr

/-- Where a number stands in a row of numbers: at an index, or nowhere, with the index at which it
could be put in. -/
inductive SearchResult where
  | found (index : Nat)
  | missing (index : Nat)
  deriving DecidableEq, Repr

/-- Halves the stretch of a row from `low` up to `high` until the number is met or nothing is
left. -/
def searchBetween (row : Array UInt32) (x : UInt32) (low high : Nat) (inside : high ≤ row.size) :
    SearchResult :=
  if _ : low < high then
    let middle := low + (high - low) / 2
    have : middle < high := by omega
    if row[middle] = x then .found middle
    else if row[middle] < x then searchBetween row x (middle + 1) high inside
    else searchBetween row x low middle (by omega)
  else .missing low
termination_by high - low

/-- The offsets at which the lines of a text start, in order. -/
structure LineMap where
  starts : Array UInt32
  deriving DecidableEq, Repr

/-- The offsets just after each newline, the first byte standing at `offset`. -/
def LineMap.startsFrom (offset : Nat) : List UInt8 → List UInt32
  | [] => []
  | byte :: rest =>
    if byte = 10 then (offset + 1).toUInt32 :: startsFrom (offset + 1) rest
    else startsFrom (offset + 1) rest

def LineMap.ofBytes (bytes : List UInt8) : LineMap := ⟨(0 :: startsFrom 0 bytes).toArray⟩

def LineMap.ofText (text : String) : LineMap := .ofBytes text.toUTF8.data.toList

def LineMap.lineCount (m : LineMap) : Nat := m.starts.size

def LineMap.search (m : LineMap) (pos : UInt32) : SearchResult :=
  searchBetween m.starts pos 0 m.starts.size (Nat.le_refl _)

/-- The line that starts at a position, or else the one before the first that starts behind it,
if there is one. -/
def LineMap.lineOf? (m : LineMap) (pos : UInt32) : Option UInt32 :=
  match m.search pos with
  | .found line => some line.toUInt32
  | .missing 0 => none
  | .missing (line + 1) => some line.toUInt32

/-- The line of a position and the distance from its start, if the line has a start that is not
behind the position. -/
def LineMap.locate? (m : LineMap) (pos : UInt32) : Option LineAndColumn :=
  match m.lineOf? pos with
  | none => none
  | some line =>
    match m.starts[line.toNat]? with
    | none => none
    | some start => if start ≤ pos then some ⟨line.toNat, (pos - start).toNat⟩ else none

def LineMap.lineOf (m : LineMap) (pos : Nat) : Nat := ((m.lineOf? pos.toUInt32).getD 0).toNat

def LineMap.locate (m : LineMap) (pos : Nat) : LineAndColumn :=
  (m.locate? pos.toUInt32).getD ⟨0, 0⟩

end ScriptLang
