import ScriptLang.Proofs.OutlineReader

/-! The text of an expression of operators, calls, conversions and assignments can be read back. So the
text tells the tree: parentheses stand wherever the tree would be another one without them. -/

namespace ScriptLang

open Source (Kind)
open Lexeme (chars)
open Outline (ReadsAt ofWord commaRows)

/-- A letter, then letters and digits. `true` and `false` are no identifiers. -/
def isIdentifier (s : String) : Bool :=
  s.toList.head?.any isLetter && s.toList.all isWordChar && s != "true" && s != "false"

/-- The letters come behind the digits. -/
theorem digitValue?_of_isLetter {c : Char} (letter : isLetter c = true) :
    Decimal.digitValue? c = none := by
  have alpha : c.isAlpha = (decide ('A'.val ≤ c.val ∧ c.val ≤ 'Z'.val) ||
      (decide ('a'.val ≤ c.val) && decide (c.val ≤ 'z'.val))) := rfl
  have upper : 'A'.val.toNat = 65 := rfl
  have lower : 'a'.val.toNat = 97 := rfl
  have nine : '9'.val.toNat = 57 := rfl
  have number : c.toNat = c.val.toNat := rfl
  have large : 65 ≤ c.val.toNat := by
    simp only [isLetter, alpha, Bool.or_eq_true, Bool.and_eq_true, decide_eq_true_eq,
      UInt32.le_iff_toNat_le] at letter
    omega
  have noDigit : ¬('0' ≤ c ∧ c ≤ '9') := by
    rintro ⟨_, le⟩
    have atMost : c.val.toNat ≤ '9'.val.toNat := UInt32.le_iff_toNat_le.1 le
    omega
  rw [Decimal.digitValue?, if_neg noDigit]

theorem isDigit_of_readDigits {acc n : Nat} {cs : List Char}
    (digits : Decimal.readDigits acc cs = some n) : ∀ c ∈ cs, Decimal.isDigit c = true := by
  induction cs generalizing acc with
  | nil => exact fun c member => (List.not_mem_nil member).elim
  | cons c cs ih =>
    rw [Decimal.readDigits] at digits
    cases isDigit : Decimal.digitValue? c with
    | none =>
      rw [isDigit] at digits
      contradiction
    | some d =>
      rw [isDigit] at digits
      have first : Decimal.isDigit c = true := by
        rw [Decimal.isDigit, isDigit]
        rfl
      exact List.forall_mem_cons.2 ⟨first, ih digits⟩

theorem ofWord_identifier {s : String} (identifier : isIdentifier s = true) :
    ofWord s.toList = .name s := by
  simp only [isIdentifier, Bool.and_eq_true, bne_iff_ne, ne_eq] at identifier
  obtain ⟨⟨⟨begins, _⟩, notTrue⟩, notFalse⟩ := identifier
  have noNumber : Decimal.readDigits 0 s.toList = none := by
    cases written : s.toList with
    | nil =>
      rw [written] at begins
      contradiction
    | cons c cs =>
      rw [written] at begins
      rw [Decimal.readDigits, digitValue?_of_isLetter begins]
  have noBool : Value.readBool? s.toList = none := by
    rw [Value.readBool?, if_neg fun same => notTrue (String.toList_injective same),
      if_neg fun same => notFalse (String.toList_injective same)]
  rw [ofWord, noNumber, noBool, String.ofList_toList]

theorem proper_identifier {s : String} (identifier : isIdentifier s = true) :
    (Lexeme.word s.toList).Proper := by
  simp only [isIdentifier, Bool.and_eq_true, List.all_eq_true] at identifier
  obtain ⟨⟨⟨begins, all⟩, _⟩, _⟩ := identifier
  refine ⟨fun isNil => ?_, all⟩
  rw [isNil] at begins
  contradiction

theorem isIdentifier_tyName {t : Ty} (named : t ≠ .error) : isIdentifier t.name = true := by
  cases t with
  | error => contradiction
  | _ => decide

namespace Value

/-- The literals that can be read back: numbers without a sign, truth values and texts. -/
def Legible : Value → Prop
  | int n => 0 ≤ n
  | bool _ | string _ => True
  | float _ => False

def lexeme : Value → Lexeme
  | string s => .quoted s.toList
  | v => .word v.text.toList

theorem lexeme_chars (v : Value) : v.literalText.toList = v.lexeme.chars := by
  cases v with
  | string s => exact String.toList_ofList
  | _ => rfl

theorem text_of_natural {n : Int64} (natural : 0 ≤ n) :
    ∃ k : Nat, Int64.ofNat k = n ∧ (int n).text.toList = Decimal.writeNat k := by
  obtain ⟨k, isNat⟩ := Int.eq_ofNat_of_zero_le (Int64.le_iff_toInt_le.1 natural)
  have same : n.toInt = k := isNat
  refine ⟨k, ?_, ?_⟩
  · rw [← Int64.ofInt_eq_ofNat, ← same, Int64.ofInt_toInt]
  · rw [text, String.toList_ofList, Decimal.writeInt64, same]
    rfl

theorem lexeme_proper {v : Value} (legible : v.Legible) : v.lexeme.Proper := by
  cases v with
  | bool b => cases b <;> exact ⟨by decide, List.all_eq_true.1 (by decide)⟩
  | int n =>
    obtain ⟨k, _, written⟩ := text_of_natural legible
    refine ⟨?_, fun c member => ?_⟩
    · rw [written]
      exact Nat.toDigits_ne_nil
    · rw [written] at member
      have digit := isDigit_of_readDigits (Decimal.readDigits_writeNat k) c member
      rw [isWordChar, digit, Bool.or_true]
  | float x => exact legible.elim
  | string s => trivial

theorem lexeme_reads {v : Value} (legible : v.Legible) (level : Nat) :
    ReadsAt level [v.lexeme] (.literal v) := by
  cases v with
  | bool b => cases b <;> exact .word _
  | int n =>
    obtain ⟨k, isNat, written⟩ := text_of_natural legible
    have number : ofWord (int n).text.toList = .literal (.int n) := by
      rw [written, ofWord, Decimal.readDigits_writeNat]
      exact congrArg (fun n => Outline.literal (.int n)) isNat
    exact number ▸ ReadsAt.word _
  | float x => exact legible.elim
  | string s =>
    have whole : ReadsAt level [.quoted s.toList] (.literal (.string (String.ofList s.toList))) :=
      .quoted _
    rwa [String.ofList_toList] at whole

end Value

namespace Expr

mutual

/-- The tree of an expression as far as a text can show it. -/
def outline : Expr → Outline
  | error => .error
  | literal v => .literal v
  | var v => .name v.name
  | assign v e => .assign v.name e.outline
  | unary op e => .unary op.token e.outline
  | binary l op r => .binary l.outline op.token r.outline
  | range l u => .range l.outline u.outline
  | call f args => .call f.name (outlines args)
  | convert t e => .convert t e.outline

def outlines : List Expr → List Outline
  | [] => []
  | e :: es => e.outline :: outlines es

end

mutual

/-- Expressions of variables, literals, operators of the tables, assignments, conversions to types
with a name, and calls. Their names are identifiers, and no function has the name of a type. -/
def Legible : Expr → Prop
  | error | range _ _ => False
  | literal v => v.Legible
  | var v => isIdentifier v.name = true
  | assign v e => isIdentifier v.name = true ∧ e.Legible
  | unary op e => op ∈ UnaryOp.table ∧ e.Legible
  | binary l op r => op ∈ BinaryOp.table ∧ l.Legible ∧ r.Legible
  | call f args => (isIdentifier f.name = true ∧ Ty.ofName? f.name = none) ∧ AllLegible args
  | convert t e => t ≠ .error ∧ e.Legible

def AllLegible : List Expr → Prop
  | [] => True
  | e :: es => e.Legible ∧ AllLegible es

end

def enclose (needed : Bool) (ts : List Lexeme) : List Lexeme :=
  if needed then .opening :: (ts ++ [.closing]) else ts

mutual

/-- The lexemes of an expression in a place that asks for the precedence `parent`. -/
def lexemesAt (parent : Nat) : Expr → List Lexeme
  | error | range _ _ => []
  | literal v => [v.lexeme]
  | var v => [.word v.name.toList]
  | assign v e => enclose (0 < parent) (.word v.name.toList :: .becomes :: e.lexemesAt 0)
  | unary op e => .sign op.token :: e.lexemesAt unaryPrecedence
  | binary l op r =>
    let p := op.action.precedence
    enclose (p < parent) (l.lexemesAt p ++ .operator op.token :: r.lexemesAt (p + 1))
  | call f args =>
    .word f.name.toList :: .opening :: (commaRows (argLexemes args) ++ [.closing])
  | convert t e => .word t.name.toList :: .opening :: (e.lexemesAt 0 ++ [.closing])

def argLexemes : List Expr → List (List Lexeme)
  | [] => []
  | e :: es => e.lexemesAt 0 :: argLexemes es

end

def Spells (s : String) (ts : List Lexeme) : Prop := s.toList = ts.flatMap chars

theorem Spells.enclose {s : String} {ts : List Lexeme} (spells : Spells s ts) (needed : Bool) :
    Spells (parenthesizeIf needed s) (enclose needed ts) := by
  cases needed with
  | false => exact spells
  | true =>
    have spelt : s.toList = ts.flatMap chars := spells
    simp [Spells, parenthesizeIf, Expr.enclose, spelt, chars]

theorem Spells.intercalate {texts : List String} {rows : List (List Lexeme)}
    (spell : List.Forall₂ Spells texts rows) :
    Spells (", ".intercalate texts) (commaRows rows) := by
  have more {s : String} {texts : List String} {rows : List (List Lexeme)}
      (spell : List.Forall₂ Spells texts rows) : (", ".intercalate (s :: texts)).toList =
        s.toList ++ (rows.flatMap (Lexeme.comma :: ·)).flatMap chars := by
    induction spell generalizing s with
    | nil => simp
    | @cons t ts texts rows first _ ih =>
      have spelt : t.toList = ts.flatMap chars := first
      rw [String.intercalate_cons_cons, String.toList_append, String.toList_append, ih, spelt]
      simp [chars]
  cases spell with
  | nil => rfl
  | @cons s ts texts rows first rest =>
    have spelt : s.toList = ts.flatMap chars := first
    rw [Spells, more rest, spelt, commaRows, List.flatMap_append]

mutual

theorem text_spells {e : Expr} (legible : e.Legible) (parent : Nat) :
    Spells (e.textAt parent) (e.lexemesAt parent) := by
  cases e with
  | error => exact legible.elim
  | literal v =>
    simp [Spells, textAt, lexemesAt, v.lexeme_chars]
  | var v => simp [Spells, textAt, lexemesAt, chars]
  | assign v e =>
    have value : (e.textAt 0).toList = (e.lexemesAt 0).flatMap chars := text_spells legible.2 0
    have bare : Spells (v.name ++ " = " ++ e.textAt 0)
        (.word v.name.toList :: .becomes :: e.lexemesAt 0) := by
      simp [Spells, value, chars]
    exact bare.enclose _
  | unary op e =>
    have operand : (e.textAt unaryPrecedence).toList =
        (e.lexemesAt unaryPrecedence).flatMap chars :=
      text_spells legible.2 _
    simp [Spells, textAt, lexemesAt, operand, chars, UnaryOp.text, Lexeme.tokenChars]
  | binary l op r =>
    have left : (l.textAt op.action.precedence).toList = _ := text_spells legible.2.1 _
    have right : (r.textAt (op.action.precedence + 1)).toList = _ := text_spells legible.2.2 _
    have bare : Spells
        (l.textAt op.action.precedence ++ " " ++ op.text ++ " " ++
          r.textAt (op.action.precedence + 1))
        (l.lexemesAt op.action.precedence ++
          .operator op.token :: r.lexemesAt (op.action.precedence + 1)) := by
      simp [Spells, left, right, chars, BinaryOp.text, Lexeme.tokenChars]
    exact bare.enclose _
  | range l u => exact legible.elim
  | call f args =>
    have rows : (", ".intercalate (argTexts args)).toList =
        (commaRows (argLexemes args)).flatMap chars :=
      Spells.intercalate (argTexts_spell legible.2)
    simp [Spells, textAt, lexemesAt, rows, chars]
  | convert t e =>
    have value : (e.textAt 0).toList = (e.lexemesAt 0).flatMap chars := text_spells legible.2 0
    simp [Spells, textAt, lexemesAt, value, chars]

theorem argTexts_spell {args : List Expr} (legible : AllLegible args) :
    List.Forall₂ Spells (argTexts args) (argLexemes args) := by
  cases args with
  | nil => exact .nil
  | cons e es => exact .cons (text_spells legible.1 0) (argTexts_spell legible.2)

end

/-- Lexemes that are read in a place of the lowest level are read in any place in parentheses. -/
theorem reads_enclosed {ts : List Lexeme} {o : Outline} {needed : Bool} {level : Nat}
    (bare : ReadsAt 0 ts o) (enough : needed = false → ReadsAt level ts o) :
    ReadsAt level (enclose needed ts) o := by
  cases needed with
  | true => exact bare.group
  | false => exact enough rfl

-- By induction on the expression. An operation or an assignment is read at its own level first; a
-- place that asks for more has parentheses around it.
mutual

theorem lexemes_read {e : Expr} (legible : e.Legible) (parent : Nat) :
    ReadsAt parent (e.lexemesAt parent) e.outline := by
  cases e with
  | error => exact legible.elim
  | literal v => exact Value.lexeme_reads legible parent
  | var v =>
    have isName : ofWord v.name.toList = .name v.name := ofWord_identifier legible
    rw [outline, ← isName]
    exact .word v.name.toList
  | assign v e =>
    have bare : ReadsAt 0 (.word v.name.toList :: .becomes :: e.lexemesAt 0)
        (.assign v.name e.outline) :=
      .assign (ofWord_identifier legible.1) (lexemes_read legible.2 0)
    refine reads_enclosed bare fun notNeeded => ?_
    obtain rfl : parent = 0 := by simpa using notNeeded
    exact bare
  | unary op e => exact .sign (lexemes_read legible.2 unaryPrecedence)
  | binary l op r =>
    have binds : tightness op.token = op.action.precedence := tightness_token op legible.1
    have bare : ReadsAt op.action.precedence
        (l.lexemesAt op.action.precedence ++
          .operator op.token :: r.lexemesAt (op.action.precedence + 1))
        (.binary l.outline op.token r.outline) := by
      rw [← binds]
      exact .binary (lexemes_read legible.2.1 _) (lexemes_read legible.2.2 _)
    refine reads_enclosed (bare.mono (Nat.zero_le _)) fun notNeeded => bare.mono ?_
    simpa using notNeeded
  | range l u => exact legible.elim
  | call f args =>
    obtain ⟨⟨identifier, noType⟩, all⟩ := legible
    rw [outline, ← Outline.applied_of_no_type noType]
    exact .applied (ofWord_identifier identifier) (args_read all)
  | convert t e =>
    obtain ⟨named, inner⟩ := legible
    have arg : List.Forall₂ (ReadsAt 0) [e.lexemesAt 0] [e.outline] :=
      .cons (lexemes_read inner 0) .nil
    have row : commaRows [e.lexemesAt 0] = e.lexemesAt 0 := List.append_nil _
    rw [outline, ← Outline.applied_of_type (Ty.ofName?_name named), lexemesAt, ← row]
    exact .applied (ofWord_identifier (isIdentifier_tyName named)) arg

theorem args_read {args : List Expr} (legible : AllLegible args) :
    List.Forall₂ (ReadsAt 0) (argLexemes args) (outlines args) := by
  cases args with
  | nil => exact .nil
  | cons e es => exact .cons (lexemes_read legible.1 0) (args_read legible.2)

end

theorem enclose_proper {ts : List Lexeme} (proper : ∀ t ∈ ts, t.Proper) (needed : Bool) :
    ∀ t ∈ enclose needed ts, t.Proper := by
  cases needed with
  | false => exact proper
  | true =>
    have last : ∀ t ∈ [Lexeme.closing], t.Proper := List.forall_mem_singleton.2 trivial
    exact List.forall_mem_cons.2 ⟨trivial, List.forall_mem_append.2 ⟨proper, last⟩⟩

theorem call_proper {f : String} {ts : List Lexeme} (identifier : isIdentifier f = true)
    (proper : ∀ t ∈ ts, t.Proper) :
    ∀ t ∈ .word f.toList :: .opening :: (ts ++ [.closing]), t.Proper :=
  List.forall_mem_cons.2 ⟨proper_identifier identifier, enclose_proper proper true⟩

mutual

theorem lexemes_proper {e : Expr} (legible : e.Legible) (parent : Nat) :
    ∀ t ∈ e.lexemesAt parent, t.Proper := by
  cases e with
  | error => exact legible.elim
  | literal v => exact List.forall_mem_singleton.2 (Value.lexeme_proper legible)
  | var v => exact List.forall_mem_singleton.2 (proper_identifier legible)
  | assign v e =>
    refine enclose_proper (List.forall_mem_cons.2 ⟨proper_identifier legible.1, ?_⟩) _
    exact List.forall_mem_cons.2 ⟨trivial, lexemes_proper legible.2 0⟩
  | unary op e =>
    have isSign : op.token ∈ unaryTokens := List.mem_map_of_mem legible.1
    exact List.forall_mem_cons.2 ⟨isSign, lexemes_proper legible.2 unaryPrecedence⟩
  | binary l op r =>
    have isOperator : op.token ∈ binaryTokens := List.mem_map_of_mem legible.1
    refine enclose_proper (List.forall_mem_append.2 ⟨lexemes_proper legible.2.1 _, ?_⟩) _
    exact List.forall_mem_cons.2 ⟨isOperator, lexemes_proper legible.2.2 _⟩
  | range l u => exact legible.elim
  | call f args =>
    obtain ⟨⟨identifier, _⟩, all⟩ := legible
    have rows := args_proper all
    refine call_proper identifier ?_
    cases rows' : argLexemes args with
    | nil => exact List.forall_mem_nil _
    | cons ts tss =>
      rw [rows'] at rows
      obtain ⟨first, rest⟩ := List.forall_mem_cons.1 rows
      refine List.forall_mem_append.2 ⟨first, fun t member => ?_⟩
      obtain ⟨us, within, member⟩ := List.mem_flatMap.1 member
      exact List.forall_mem_cons.2 ⟨trivial, rest us within⟩ t member
  | convert t e =>
    exact call_proper (isIdentifier_tyName legible.1) (lexemes_proper legible.2 0)

theorem args_proper {args : List Expr} (legible : AllLegible args) :
    ∀ ts ∈ argLexemes args, ∀ t ∈ ts, t.Proper := by
  cases args with
  | nil => exact List.forall_mem_nil _
  | cons e es => exact List.forall_mem_cons.2 ⟨lexemes_proper legible.1 0, args_proper legible.2⟩

end

theorem lexemes_row {e : Expr} (legible : e.Legible) : Lexeme.Row (e.lexemesAt 0) :=
  Outline.row_of_read (lexemes_proper legible 0) (lexemes_read legible 0).whole

/-- Expressions with the same text have the same tree. -/
theorem text_shows_tree {e₁ e₂ : Expr} (legible₁ : e₁.Legible) (legible₂ : e₂.Legible)
    (same : e₁.text = e₂.text) : e₁.outline = e₂.outline := by
  have spelt₁ : e₁.text.toList = (e₁.lexemesAt 0).flatMap chars := text_spells legible₁ 0
  have spelt₂ : e₂.text.toList = (e₂.lexemesAt 0).flatMap chars := text_spells legible₂ 0
  have lexemes : e₁.lexemesAt 0 = e₂.lexemesAt 0 := by
    refine (lexemes_row legible₁).eq_of_chars (lexemes_row legible₂) ?_
    rw [← spelt₁, ← spelt₂, same]
  have read₁ := (lexemes_read legible₁ 0).whole
  have read₂ := (lexemes_read legible₂ 0).whole
  rw [lexemes, read₂] at read₁
  exact (Option.some.inj read₁).symm

end Expr

namespace PrintedTrees

def operand (ty : Ty) : Var := { id := 0, name := "x", ty, kind := .localVar, access := .mutable }

def scaledSum (ty : Ty) : Expr :=
  .assign (operand ty)
    (.binary
      (.unary (.on ty .minus .negation)
        (.binary (.var (operand ty)) (.combine ty .plus .addition) (.var (operand ty))))
      (.combine ty .star .multiplication) (.var (operand ty)))

example : (scaledSum .int).text = "x = -(x + x) * x" := by decide

end PrintedTrees

open PrintedTrees in
theorem scaledSum_shows_tree :
    (scaledSum .int).Legible ∧ (scaledSum .float).Legible ∧
      (scaledSum .int).text = (scaledSum .float).text ∧
      (scaledSum .int).outline = (scaledSum .float).outline := by
  have isName : isIdentifier "x" = true := by decide
  have ofInts : (scaledSum .int).Legible :=
    ⟨isName, by decide, ⟨by decide, by decide, isName, isName⟩, isName⟩
  have ofFloats : (scaledSum .float).Legible :=
    ⟨isName, by decide, ⟨by decide, by decide, isName, isName⟩, isName⟩
  have same : (scaledSum .int).text = (scaledSum .float).text := by decide
  exact ⟨ofInts, ofFloats, same, Expr.text_shows_tree ofInts ofFloats same⟩

end ScriptLang
