import ScriptLang.Proofs.Typing

/-! An integer and a truth value are read back from their text, whatever blanks stand around it. So no
two of one type are written alike. -/

namespace ScriptLang

section Blanks

variable {p q cs : List Char}

theorem trimEnd_append (blank : ∀ c ∈ q, isBlank c = true) : trimEnd (cs ++ q) = trimEnd cs := by
  have reversed : ∀ c ∈ q.reverse, isBlank c = true := by simpa using blank
  rw [trimEnd, trimEnd, List.reverse_append, List.dropWhile_append_of_pos reversed]

/-- Blanks around a text do not matter where the text is trimmed. -/
theorem trim_append (before : ∀ c ∈ p, isBlank c = true) (after : ∀ c ∈ q, isBlank c = true) :
    trim (p ++ cs ++ q) = trim cs := by
  rw [trim, trim, List.append_assoc, List.dropWhile_append_of_pos before, List.dropWhile_append]
  by_cases empty : (cs.dropWhile isBlank).isEmpty
  · have nothing : (q ++ []).dropWhile isBlank = [] := List.dropWhile_append_of_pos after
    rw [List.append_nil] at nothing
    rw [if_pos empty, nothing, List.isEmpty_iff.1 empty]
  · rw [if_neg empty, trimEnd_append after]

theorem dropWhile_eq_self (solid : ∀ c ∈ cs, isBlank c = false) : cs.dropWhile isBlank = cs := by
  cases cs with
  | nil => rfl
  | cons c cs => simp [solid c List.mem_cons_self]

theorem trim_eq_self (solid : ∀ c ∈ cs, isBlank c = false) : trim cs = cs := by
  have reversed : ∀ c ∈ cs.reverse, isBlank c = false := by simpa using solid
  rw [trim, dropWhile_eq_self solid, trimEnd, dropWhile_eq_self reversed, List.reverse_reverse]

end Blanks

namespace Decimal

theorem isDigit_of_mem_writeNat {n : Nat} {c : Char} (member : c ∈ writeNat n) :
    c.isDigit = true := Nat.isDigit_of_mem_toDigits (by decide) (by decide) member

theorem writeNat_ne_nil (n : Nat) : writeNat n ≠ [] := by
  intro empty
  have length : 0 < (writeNat n).length := Nat.length_toDigits_pos
  simp [empty] at length

theorem readNat?_writeNat (n : Nat) : readNat? (writeNat n) = some n := by
  have written := readDigits_writeNat n
  cases digits : writeNat n with
  | nil => exact absurd digits (writeNat_ne_nil n)
  | cons c cs => rwa [digits] at written

/-- An integer is read back from its digits and its sign. -/
theorem readInt?_writeInt (n : Int) : readInt? (writeInt n) = some n := by
  cases n with
  | negSucc n =>
    rw [writeInt, readInt?, readNat?_writeNat]
    rfl
  | ofNat n =>
    have written := readNat?_writeNat n
    rw [writeInt]
    cases digits : writeNat n with
    | nil => exact absurd digits (writeNat_ne_nil n)
    | cons c cs =>
      rw [digits] at written
      have digit : c.isDigit = true := isDigit_of_mem_writeNat (digits ▸ List.mem_cons_self)
      rw [readInt?, written]
      · rfl
      · intro rest minus
        rw [(List.cons.inj minus).1] at digit
        contradiction
      · intro rest plus
        rw [(List.cons.inj plus).1] at digit
        contradiction

theorem readInt64?_writeInt64 (n : Int64) : readInt64? (writeInt64 n) = some n := by
  have lower : Int64.minValue.toInt ≤ n.toInt := Int64.le_iff_toInt_le.1 (Int64.minValue_le n)
  have upper : n.toInt ≤ Int64.maxValue.toInt := Int64.le_iff_toInt_le.1 (Int64.le_maxValue n)
  simp only [readInt64?, writeInt64, readInt?_writeInt, lower, upper, and_self, if_true,
    Int64.ofInt_toInt]

theorem not_isBlank_of_isDigit {c : Char} (digit : c.isDigit = true) : isBlank c = false := by
  have bounds : (decide ('0'.val ≤ c.val) && decide (c.val ≤ '9'.val)) = true := digit
  simp only [Bool.and_eq_true, decide_eq_true_eq, UInt32.le_iff_toNat_le] at bounds
  have lower : 48 ≤ c.toNat := bounds.1
  have upper : c.toNat ≤ 57 := bounds.2
  simp [isBlank]
  omega

theorem not_isBlank_of_mem_writeInt64 {n : Int64} {c : Char} (member : c ∈ writeInt64 n) :
    isBlank c = false := by
  rw [writeInt64] at member
  cases sign : n.toInt with
  | ofNat k =>
    rw [sign] at member
    exact not_isBlank_of_isDigit (isDigit_of_mem_writeNat member)
  | negSucc k =>
    rw [sign] at member
    rcases List.mem_cons.1 member with rfl | digit
    · rfl
    · exact not_isBlank_of_isDigit (isDigit_of_mem_writeNat digit)

end Decimal

namespace Value

/-- Blanks around a text do not matter for what it is converted to. -/
theorem convert?_surrounded {p q s : String} (before : ∀ c ∈ p.toList, isBlank c = true)
    (after : ∀ c ∈ q.toList, isBlank c = true) {t : Ty} (reads : t ≠ .string) (other : t ≠ .any) :
    (string (p ++ s ++ q)).convert? t = (string s).convert? t := by
  have same : trim (p ++ s ++ q).toList = trim s.toList := by
    rw [String.toList_append, String.toList_append, trim_append before after]
  cases t <;> first | contradiction | simp only [convert?, same]

theorem convert?_text_int (n : Int64) : (string (int n).text).convert? .int = some (int n) := by
  have solid : ∀ c ∈ Decimal.writeInt64 n, isBlank c = false := fun c member =>
    Decimal.not_isBlank_of_mem_writeInt64 member
  simp only [convert?, text, String.toList_ofList, trim_eq_self solid,
    Decimal.readInt64?_writeInt64, Option.map_some]

theorem convert?_text_bool (b : Bool) : (string (bool b).text).convert? .bool = some (bool b) := by
  cases b <;> decide +kernel

theorem convert?_text {v : Value} (lossless : v.ty = .int ∨ v.ty = .bool) :
    (string v.text).convert? v.ty = some v := by
  cases v with
  | int n => exact convert?_text_int n
  | bool b => exact convert?_text_bool b
  | float | string => simp [ty] at lossless

/-- An integer or a truth value is written as a text, which is converted to it again with any blanks
around it; so values of its type with the same text are the same. -/
theorem convert_readsBack {v : Value} (lossless : v.ty = .int ∨ v.ty = .bool) {p q : String}
    (before : ∀ c ∈ p.toList, isBlank c = true) (after : ∀ c ∈ q.toList, isBlank c = true) :
    v.convert .string = .ok (string v.text) ∧
      (string (p ++ v.text ++ q)).convert v.ty = .ok v ∧
      ∀ w : Value, w.ty = v.ty → w.text = v.text → w = v := by
  have reads : v.ty ≠ .string := by rcases lossless with h | h <;> rw [h] <;> decide
  refine ⟨by rw [convert, convert?_string], ?_, fun w sameTy sameText => ?_⟩
  · rw [convert, convert?_surrounded before after reads v.ty_ne.2.1, convert?_text lossless]
  · have read := convert?_text (v := w) (sameTy ▸ lossless)
    rw [sameTy, sameText, convert?_text lossless] at read
    exact (Option.some.inj read).symm

/-- The least integer among blanks. -/
theorem leastInteger_readsBack :
    (∀ c ∈ "\t\u2003".toList, isBlank c = true) ∧ (∀ c ∈ "\n".toList, isBlank c = true) ∧
      (int Int64.minValue).convert .string = .ok (string "-9223372036854775808") ∧
      (string "\t\u2003-9223372036854775808\n").convert .int = .ok (int Int64.minValue) := by
  have before : ∀ c ∈ "\t\u2003".toList, isBlank c = true := List.all_eq_true.1 (by decide +kernel)
  have after : ∀ c ∈ "\n".toList, isBlank c = true := List.all_eq_true.1 (by decide +kernel)
  have text : (int Int64.minValue).text = "-9223372036854775808" := by decide +kernel
  obtain ⟨written, read, _⟩ :=
    convert_readsBack (v := int Int64.minValue) (.inl rfl) before after
  rw [text] at written read
  exact ⟨before, after, written, read⟩

end Value

end ScriptLang
