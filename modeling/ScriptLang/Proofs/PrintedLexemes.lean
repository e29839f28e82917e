import ScriptLang.Printer

/-! The text of an expression is a row of lexemes: words, texts in quotes, and a fixed set of signs.
Where no two words stand side by side, the characters of a row tell its lexemes. -/

namespace ScriptLang

open Source (Kind)

/-- A letter. Every character beyond ASCII counts as one. -/
def isLetter (c : Char) : Bool := c.isAlpha || 128 ≤ c.toNat

def isWordChar (c : Char) : Bool := isLetter c || Decimal.isDigit c

def unaryTokens : List Kind := UnaryOp.table.map (·.token)

def binaryTokens : List Kind := BinaryOp.table.map (·.token)

inductive Lexeme where
  /-- A name, a number or a truth value. -/
  | word (cs : List Char)
  | quoted (cs : List Char)
  /-- A unary operator. -/
  | sign (token : Kind)
  /-- A binary operator, with the blanks around it. -/
  | operator (token : Kind)
  /-- The sign of an assignment, with the blanks around it. -/
  | becomes
  | opening
  | closing
  /-- A comma, with the blank behind it. -/
  | comma
  deriving DecidableEq, Repr

namespace Lexeme

def tokenChars (token : Kind) : List Char := (token.text?.getD "?").toList

def chars : Lexeme → List Char
  | word cs => cs
  | quoted cs => '"' :: cs.flatMap quoteChar ++ ['"']
  | sign token => tokenChars token
  | operator token => ' ' :: tokenChars token ++ [' ']
  | becomes => [' ', '=', ' ']
  | opening => ['(']
  | closing => [')']
  | comma => [',', ' ']

/-- The lexemes that are always written in one way. -/
def fixed : List Lexeme :=
  [becomes, opening, closing, comma] ++ unaryTokens.map sign ++ binaryTokens.map operator

/-- A word has word characters, and the others are among the fixed ones. -/
def Proper : Lexeme → Prop
  | word cs => cs ≠ [] ∧ ∀ c ∈ cs, isWordChar c = true
  | quoted _ => True
  | sign token => token ∈ unaryTokens
  | operator token => token ∈ binaryTokens
  | becomes | opening | closing | comma => True

def isWord : Lexeme → Bool
  | word _ => true
  | quoted _ | sign _ | operator _ | becomes | opening | closing | comma => false

/-- A row of lexemes in which no two words stand side by side. -/
def Row : List Lexeme → Prop
  | [] => True
  | t :: ts => t.Proper ∧ (t.isWord = true → ∀ u ∈ ts.head?, u.isWord = false) ∧ Row ts

theorem prefix_free : ∀ t ∈ fixed, ∀ u ∈ fixed, t.chars <+: u.chars → t = u := by decide

/-- A fixed lexeme starts neither like a word nor like a text in quotes. -/
theorem fixed_head {t : Lexeme} (isFixed : t ∈ fixed) :
    ∃ c cs, t.chars = c :: cs ∧ isWordChar c = false ∧ c ≠ '"' := by
  have heads : ∀ t ∈ fixed, (t.chars.head?.any fun c => !isWordChar c && c != '"') = true := by
    decide
  have head := heads t isFixed
  cases written : t.chars with
  | nil =>
    rw [written] at head
    contradiction
  | cons c cs =>
    rw [written] at head
    simp only [List.head?_cons, Option.any_some, Bool.and_eq_true, Bool.not_eq_true', bne_iff_ne]
      at head
    exact ⟨c, cs, rfl, head.1, head.2⟩

theorem Proper.mem_fixed {t : Lexeme} (proper : t.Proper) :
    (∃ cs, t = word cs) ∨ (∃ cs, t = quoted cs) ∨ t ∈ fixed := by
  cases t with
  | word cs => exact .inl ⟨cs, rfl⟩
  | quoted cs => exact .inr (.inl ⟨cs, rfl⟩)
  | sign token =>
    have isSign : sign token ∈ unaryTokens.map sign := List.mem_map_of_mem proper
    exact .inr (.inr (List.mem_append_left _ (List.mem_append_right _ isSign)))
  | operator token =>
    exact .inr (.inr (List.mem_append_right _ (List.mem_map_of_mem proper)))
  | becomes => exact .inr (.inr (by decide))
  | opening => exact .inr (.inr (by decide))
  | closing => exact .inr (.inr (by decide))
  | comma => exact .inr (.inr (by decide))

def readQuoted : List Char → Option (List Char × List Char)
  | [] => none
  | '"' :: cs => some ([], cs)
  | '\\' :: 'n' :: cs => (readQuoted cs).map (Prod.map (List.cons '\n') id)
  | '\\' :: c :: cs => (readQuoted cs).map (Prod.map (List.cons c) id)
  | c :: cs => (readQuoted cs).map (Prod.map (List.cons c) id)

def read? : List Char → Option (Lexeme × List Char)
  | [] => none
  | c :: cs =>
    if isWordChar c then
      some (word ((c :: cs).takeWhile isWordChar), (c :: cs).dropWhile isWordChar)
    else if c = '"' then (readQuoted cs).map (Prod.map quoted id)
    else
      (fixed.find? fun t => t.chars.isPrefixOf (c :: cs)).map fun t =>
        (t, (c :: cs).drop t.chars.length)

theorem readQuoted_quoteChar (c : Char) (rest : List Char) :
    readQuoted (quoteChar c ++ rest) = (readQuoted rest).map (Prod.map (List.cons c) id) := by
  unfold quoteChar
  split
  next => rfl
  next => rfl
  next => rfl
  next noQuote noSlash _ =>
    rw [List.singleton_append, readQuoted]
    · exact noQuote
    · exact fun _ isSlash => (noSlash isSlash).elim
    · exact fun _ _ isSlash => (noSlash isSlash).elim

theorem readQuoted_flatMap (cs rest : List Char) :
    readQuoted (cs.flatMap quoteChar ++ '"' :: rest) = some (cs, rest) := by
  induction cs with
  | nil => rfl
  | cons c cs ih =>
    rw [List.flatMap_cons, List.append_assoc, readQuoted_quoteChar, ih]
    rfl

theorem read?_word {cs rest : List Char} (proper : (word cs).Proper)
    (ends : ∀ c ∈ rest.head?, isWordChar c = false) :
    read? ((word cs).chars ++ rest) = some (word cs, rest) := by
  obtain ⟨nonempty, all⟩ := proper
  cases cs with
  | nil => contradiction
  | cons c cs =>
    have stop : rest.takeWhile isWordChar = [] ∧ rest.dropWhile isWordChar = rest := by
      cases rest with
      | nil => exact ⟨rfl, rfl⟩
      | cons d rest =>
        have isEnd := ends d rfl
        exact ⟨List.takeWhile_cons_of_neg (by simp [isEnd]),
          List.dropWhile_cons_of_neg (by simp [isEnd])⟩
    show read? (c :: (cs ++ rest)) = _
    rw [read?, if_pos (all c List.mem_cons_self), ← List.cons_append,
      List.takeWhile_append_of_pos all, List.dropWhile_append_of_pos all, stop.1, stop.2,
      List.append_nil]

theorem read?_fixed {t : Lexeme} (isFixed : t ∈ fixed) (rest : List Char) :
    read? (t.chars ++ rest) = some (t, rest) := by
  obtain ⟨c, cs, written, notWord, noQuote⟩ := fixed_head isFixed
  have found : fixed.find? (fun u => u.chars.isPrefixOf (t.chars ++ rest)) = some t := by
    cases first : fixed.find? fun u => u.chars.isPrefixOf (t.chars ++ rest) with
    | none =>
      have other := List.find?_eq_none.1 first t isFixed
      simp at other
    | some u =>
      obtain ⟨accepted, _⟩ := List.find?_eq_some_iff_append.1 first
      have isPrefix : u.chars <+: t.chars ++ rest := List.isPrefixOf_iff_prefix.1 accepted
      have member := List.mem_of_find?_eq_some first
      -- of two beginnings of one text, one is the beginning of the other
      rcases List.prefix_or_prefix_of_prefix isPrefix (List.prefix_append t.chars rest) with
        shorter | longer
      · rw [prefix_free u member t isFixed shorter]
      · rw [prefix_free t isFixed u member longer]
  rw [written, List.cons_append] at found ⊢
  rw [read?, if_neg (by simp [notWord]), if_neg noQuote, found, Option.map_some, written,
    ← List.cons_append, List.drop_left]

/-- A lexeme is read back, if after a word no further word character follows. -/
theorem read?_chars {t : Lexeme} (proper : t.Proper) {rest : List Char}
    (ends : t.isWord = true → ∀ c ∈ rest.head?, isWordChar c = false) :
    read? (t.chars ++ rest) = some (t, rest) := by
  rcases proper.mem_fixed with ⟨cs, rfl⟩ | ⟨cs, rfl⟩ | isFixed
  · exact read?_word proper (ends rfl)
  · have written : (quoted cs).chars ++ rest = '"' :: (cs.flatMap quoteChar ++ '"' :: rest) := by
      simp [chars]
    rw [written, read?, if_neg (by decide), if_pos rfl, readQuoted_flatMap]
    rfl
  · exact read?_fixed isFixed rest

theorem chars_ne_nil {t : Lexeme} (proper : t.Proper) : t.chars ≠ [] := by
  rcases proper.mem_fixed with ⟨cs, rfl⟩ | ⟨cs, rfl⟩ | isFixed
  · exact proper.1
  · exact List.cons_ne_nil _ _
  · obtain ⟨c, cs, written, _⟩ := fixed_head isFixed
    rw [written]
    exact List.cons_ne_nil c cs

/-- A lexeme that is no word does not start with a word character. -/
theorem head_of_not_word {t : Lexeme} (proper : t.Proper) (noWord : t.isWord = false) {c : Char}
    (isHead : c ∈ t.chars.head?) : isWordChar c = false := by
  rcases proper.mem_fixed with ⟨cs, rfl⟩ | ⟨cs, rfl⟩ | isFixed
  · contradiction
  · obtain rfl : '"' = c := Option.some.inj isHead
    decide
  · obtain ⟨d, cs, written, notWord, _⟩ := fixed_head isFixed
    rw [written] at isHead
    obtain rfl : d = c := Option.some.inj isHead
    exact notWord

theorem Row.head {ts : List Lexeme} (row : Row ts) (noWord : ∀ t ∈ ts.head?, t.isWord = false) :
    ∀ c ∈ (ts.flatMap chars).head?, isWordChar c = false := by
  cases ts with
  | nil => exact fun c isHead => by contradiction
  | cons t ts =>
    obtain ⟨d, cs, written⟩ := List.exists_cons_of_ne_nil (chars_ne_nil row.1)
    intro c isHead
    rw [List.flatMap_cons, written] at isHead
    refine head_of_not_word row.1 (noWord t rfl) ?_
    rw [written]
    exact isHead

/-- The first lexeme of a row is read back, and the rest of the row is left. -/
theorem Row.read? {t : Lexeme} {ts : List Lexeme} (row : Row (t :: ts)) :
    Lexeme.read? ((t :: ts).flatMap chars) = some (t, ts.flatMap chars) := by
  obtain ⟨proper, apart, rest⟩ := row
  rw [List.flatMap_cons]
  exact read?_chars proper fun isWord => rest.head (apart isWord)

/-- Rows with the same characters are the same. -/
theorem Row.eq_of_chars {ts us : List Lexeme} (row : Row ts) (row' : Row us)
    (same : ts.flatMap chars = us.flatMap chars) : ts = us := by
  induction ts generalizing us with
  | nil =>
    cases us with
    | nil => rfl
    | cons u us =>
      rw [List.flatMap_cons] at same
      exact (chars_ne_nil row'.1 (List.append_eq_nil_iff.1 same.symm).1).elim
  | cons t ts ih =>
    cases us with
    | nil =>
      rw [List.flatMap_cons] at same
      exact (chars_ne_nil row.1 (List.append_eq_nil_iff.1 same).1).elim
    | cons u us =>
      have read := row.read?
      rw [same, row'.read?] at read
      obtain ⟨rfl, rest⟩ := Prod.mk.inj (Option.some.inj read)
      rw [ih row.2.2 row'.2.2 rest.symm]

end Lexeme

end ScriptLang
