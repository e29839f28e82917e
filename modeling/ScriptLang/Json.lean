import ScriptLang.Decimal.Integer

/-! Reads a document into a tree that keeps what a strict reader of settings must see: the
fields of an object in order, with repetitions, and numbers as they were written. Writes
texts in the shortest escaped form. -/

namespace ScriptLang

/-- A JSON document. A string that escapes half of a surrogate pair has no text; that is
a mistake only where the text is wanted. -/
inductive Json where
  | null
  | bool (b : Bool)
  | number (text : String)
  | string (text : Option String)
  | array (items : List Json)
  | object (fields : List (Option String × Json))
  deriving Inhabited

namespace Json

def isSpace (c : Char) : Bool := c == ' ' || c == '\t' || c == '\n' || c == '\r'

def skipSpace (cs : List Char) : List Char := cs.dropWhile isSpace

def hexValue? (c : Char) : Option Nat :=
  let n := c.toNat
  if 48 ≤ n ∧ n ≤ 57 then some (n - 48)
  else if 65 ≤ n ∧ n ≤ 70 then some (n - 55)
  else if 97 ≤ n ∧ n ≤ 102 then some (n - 87)
  else none

def hex4? : List Char → Option (Nat × List Char)
  | a :: b :: c :: d :: rest => do
    let high := (← hexValue? a) * 16 + (← hexValue? b)
    let low := (← hexValue? c) * 16 + (← hexValue? d)
    return (high * 256 + low, rest)
  | _ => none

def escaped? : Char → Option Char
  | '"' => some '"'
  | '\\' => some '\\'
  | '/' => some '/'
  | 'b' => some '\x08'
  | 'f' => some '\x0c'
  | 'n' => some '\n'
  | 'r' => some '\r'
  | 't' => some '\t'
  | _ => none

/-- A piece of a string: a character, or a 16-bit unit that was escaped. -/
inductive Piece where
  | char (c : Char)
  | unit (n : Nat)
  deriving DecidableEq, Repr

def readPieces? : (fuel : Nat) → List Char → Option (List Piece × List Char)
  | 0, _ | _ + 1, [] => none
  | _ + 1, '"' :: rest => some ([], rest)
  | fuel + 1, '\\' :: 'u' :: rest => do
    let (n, rest) ← hex4? rest
    let (ps, rest) ← readPieces? fuel rest
    return (.unit n :: ps, rest)
  | _ + 1, ['\\'] => none
  | fuel + 1, '\\' :: c :: rest => do
    let c ← escaped? c
    let (ps, rest) ← readPieces? fuel rest
    return (.char c :: ps, rest)
  | fuel + 1, c :: rest => do
    if c.toNat < 32 then none
    else
      let (ps, rest) ← readPieces? fuel rest
      return (.char c :: ps, rest)

def isHighSurrogate (n : Nat) : Bool := 0xD800 ≤ n && n < 0xDC00

def isLowSurrogate (n : Nat) : Bool := 0xDC00 ≤ n && n < 0xE000

/-- The text of pieces, if every surrogate has its other half next to it. -/
def joinPieces? : List Piece → Option (List Char)
  | [] => some []
  | .char c :: ps => (joinPieces? ps).map (c :: ·)
  | .unit n :: .unit m :: ps =>
    if isHighSurrogate n && isLowSurrogate m then
      (joinPieces? ps).map (Char.ofNat (0x10000 + (n - 0xD800) * 1024 + (m - 0xDC00)) :: ·)
    else if isHighSurrogate n || isLowSurrogate n then none
    else (joinPieces? (.unit m :: ps)).map (Char.ofNat n :: ·)
  | .unit n :: ps =>
    if isHighSurrogate n || isLowSurrogate n then none
    else (joinPieces? ps).map (Char.ofNat n :: ·)

def readString? (cs : List Char) : Option (Option String × List Char) := do
  let (ps, rest) ← readPieces? (cs.length + 1) cs
  return ((joinPieces? ps).map String.ofList, rest)

def readDigits? (cs : List Char) : Option (List Char × List Char) :=
  let ds := cs.takeWhile Decimal.isDigit
  if ds.isEmpty then none else some (ds, cs.dropWhile Decimal.isDigit)

/-- The digits before the point, without a needless zero in front. -/
def readWhole? (cs : List Char) : Option (List Char × List Char) := do
  let (ds, rest) ← readDigits? cs
  if ds.head? = some '0' ∧ ds.length ≠ 1 then none else some (ds, rest)

def readPlaces? : List Char → Option (List Char × List Char)
  | '.' :: cs => (readDigits? cs).map fun (ds, rest) => ('.' :: ds, rest)
  | cs => some ([], cs)

def readPower? : List Char → Option (List Char × List Char)
  | c :: cs =>
    if c = 'e' ∨ c = 'E' then
      let sign := cs.takeWhile fun c => c == '+' || c == '-'
      if 1 < sign.length then none
      else (readDigits? (cs.drop sign.length)).map fun (ds, rest) => (c :: sign ++ ds, rest)
    else some ([], c :: cs)
  | [] => some ([], [])

def readNumber? (cs : List Char) : Option (Json × List Char) := do
  let (sign, cs) := match cs with
    | '-' :: rest => (['-'], rest)
    | _ => ([], cs)
  let (whole, cs) ← readWhole? cs
  let (places, cs) ← readPlaces? cs
  let (power, cs) ← readPower? cs
  return (.number (String.ofList (sign ++ whole ++ places ++ power)), cs)

mutual

/-- A value after blank space, nested at most as deep as the fuel allows. -/
def readValue? : (fuel : Nat) → List Char → Option (Json × List Char)
  | 0, _ => none
  | fuel + 1, cs =>
    match skipSpace cs with
    | 'n' :: 'u' :: 'l' :: 'l' :: rest => some (null, rest)
    | 't' :: 'r' :: 'u' :: 'e' :: rest => some (bool true, rest)
    | 'f' :: 'a' :: 'l' :: 's' :: 'e' :: rest => some (bool false, rest)
    | '"' :: rest => (readString? rest).map fun (s, rest) => (string s, rest)
    | '[' :: rest =>
      match skipSpace rest with
      | ']' :: rest => some (array [], rest)
      | _ => (readItems? fuel rest).map fun (items, rest) => (array items, rest)
    | '{' :: rest =>
      match skipSpace rest with
      | '}' :: rest => some (object [], rest)
      | _ => (readFields? fuel rest).map fun (fields, rest) => (object fields, rest)
    | cs => readNumber? cs

def readItems? : (fuel : Nat) → List Char → Option (List Json × List Char)
  | 0, _ => none
  | fuel + 1, cs => do
    let (item, rest) ← readValue? fuel cs
    match skipSpace rest with
    | ',' :: rest =>
      let (items, rest) ← readItems? fuel rest
      return (item :: items, rest)
    | ']' :: rest => return ([item], rest)
    | _ => none

def readFields? : (fuel : Nat) → List Char → Option (List (Option String × Json) × List Char)
  | 0, _ => none
  | fuel + 1, cs =>
    match skipSpace cs with
    | '"' :: rest => do
      let (name, rest) ← readString? rest
      match skipSpace rest with
      | ':' :: rest =>
        let (value, rest) ← readValue? fuel rest
        match skipSpace rest with
        | ',' :: rest =>
          let (fields, rest) ← readFields? fuel rest
          return ((name, value) :: fields, rest)
        | '}' :: rest => return ([(name, value)], rest)
        | _ => none
      | _ => none
    | _ => none

end

/-- The document a text holds. Every second step of the reader takes a character. -/
def parse? (s : String) : Option Json := do
  let (value, rest) ← readValue? (2 * s.length + 2) s.toList
  if (skipSpace rest).isEmpty then some value else none

def hexDigit (n : Nat) : Char := Nat.digitChar n

def escapeChar (c : Char) : List Char :=
  if c = '"' then ['\\', '"']
  else if c = '\\' then ['\\', '\\']
  else if c = '\x08' then ['\\', 'b']
  else if c = '\t' then ['\\', 't']
  else if c = '\n' then ['\\', 'n']
  else if c = '\x0c' then ['\\', 'f']
  else if c = '\r' then ['\\', 'r']
  else if c.toNat < 32 then
    ['\\', 'u', '0', '0', hexDigit (c.toNat / 16), hexDigit (c.toNat % 16)]
  else [c]

def writeString (s : String) : String :=
  String.ofList ('"' :: s.toList.flatMap escapeChar ++ ['"'])

/-- The values of the named fields. They stand in an object, each at most once and among
others, or in their order in an array that may end early. -/
def fields? (names : List String) : Json → Option (List (String × Json))
  | object fields => do
    let fields ← fields.mapM fun (name, value) => name.map (·, value)
    let known := fields.filter fun (name, _) => names.contains name
    if (known.map Prod.fst).Nodup then some known else none
  | array items => if items.length ≤ names.length then some (names.zip items) else none
  | _ => none

def field? {α : Type} (fields : List (String × Json)) (name : String) (otherwise : α)
    (read? : Json → Option α) : Option α :=
  match fields.lookup name with
  | some value => read? value
  | none => some otherwise

def bool? : Json → Option Bool
  | bool b => some b
  | _ => none

/-- A whole number below `2^64`, written without a sign, a point or an exponent. -/
def word? : Json → Option Nat
  | number text => (Decimal.readNat? text.toList).filter (· < UInt64.size)
  | _ => none

def text? : Json → Option String
  | string s => s
  | _ => none

def optional? {α : Type} (read? : Json → Option α) : Json → Option (Option α)
  | null => some none
  | j => (read? j).map some

end Json

end ScriptLang
