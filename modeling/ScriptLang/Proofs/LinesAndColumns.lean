import ScriptLang.Text.LineMap

/-! The starts of lines stand in increasing order and begin with zero. So the binary search finds the
last start up to a position, its index is the number of newlines below the position, and nothing on
the way to the line and the column fails. -/

namespace ScriptLang

variable {row : Array UInt32} {x : UInt32} {low high : Nat}

def Increasing (row : Array UInt32) : Prop := row.toList.Pairwise (· < ·)

theorem Increasing.lt (increasing : Increasing row) {i j : Nat} (before : i < j)
    (inside : j < row.size) : row[i] < row[j] :=
  List.pairwise_iff_getElem.1 increasing i j (by simp; omega) (by simpa using inside) before

/-- Numbers below `x` stand before `low`, and numbers above it from `high` on. -/
structure Encloses (row : Array UInt32) (x : UInt32) (low high : Nat) : Prop where
  order : low ≤ high
  inside : high ≤ row.size
  below : ∀ i (_ : i < row.size), i < low → row[i] < x
  above : ∀ i (_ : i < row.size), high ≤ i → x < row[i]

def SearchResult.Holds (row : Array UInt32) (x : UInt32) : SearchResult → Prop
  | found i => row[i]? = some x
  | missing i => Encloses row x i i

theorem Encloses.whole : Encloses row x 0 row.size where
  order := Nat.zero_le _
  inside := Nat.le_refl _
  below _ _ before := absurd before (Nat.not_lt_zero _)
  above _ inside behind := absurd inside (Nat.not_lt.2 behind)

theorem Encloses.raise (enclosed : Encloses row x low high) (increasing : Increasing row)
    {middle : Nat} (part : middle < high) (inside : middle < row.size) (less : row[middle] < x) :
    Encloses row x (middle + 1) high := by
  refine ⟨part, enclosed.inside, fun i bound before => ?_, enclosed.above⟩
  by_cases same : i = middle
  · subst same
    exact less
  · have lower := increasing.lt (show i < middle by omega) inside
    exact UInt32.lt_trans lower less

theorem Encloses.cut (enclosed : Encloses row x low high) (increasing : Increasing row)
    {middle : Nat} (part : low ≤ middle) (inside : middle < row.size) (greater : x < row[middle]) :
    Encloses row x low middle := by
  refine ⟨part, Nat.le_of_lt inside, enclosed.below, fun i bound behind => ?_⟩
  by_cases same : i = middle
  · subst same
    exact greater
  · have higher := increasing.lt (show middle < i by omega) bound
    exact UInt32.lt_trans greater higher

/-- Each step of the search keeps a stretch that encloses the number. -/
theorem searchBetween_holds (increasing : Increasing row) (inside : high ≤ row.size)
    (enclosed : Encloses row x low high) :
    (searchBetween row x low high inside).Holds row x := by
  fun_induction searchBetween row x low high inside with
  | case1 low high inside part middle bound same =>
    exact Array.getElem?_eq_some_iff.2 ⟨by omega, same⟩
  | case2 low high inside part middle bound other less ih =>
    exact ih (enclosed.raise increasing bound (by omega) less)
  | case3 low high inside part middle bound other greater ih =>
    refine ih (enclosed.cut increasing (by omega) (by omega) ?_)
    exact UInt32.lt_of_le_of_ne (UInt32.not_lt.1 greater) (Ne.symm other)
  | case4 low high inside empty =>
    have same : high = low := by have := enclosed.order; omega
    subst same
    exact enclosed

/-- The index of the last number of the row that is not above `x`. -/
structure IsLastUpTo (row : Array UInt32) (x : UInt32) (i : Nat) : Prop where
  inside : i < row.size
  upTo : row[i] ≤ x
  later : ∀ j (_ : j < row.size), i < j → x < row[j]

theorem IsLastUpTo.of_found (increasing : Increasing row) {i : Nat} (found : row[i]? = some x) :
    IsLastUpTo row x i := by
  obtain ⟨inside, same⟩ := Array.getElem?_eq_some_iff.1 found
  subst same
  exact ⟨inside, UInt32.le_refl _, fun j bound after => increasing.lt after bound⟩

theorem IsLastUpTo.of_missing {i : Nat} (missing : Encloses row x (i + 1) (i + 1)) :
    IsLastUpTo row x i := by
  have inside := missing.inside
  refine ⟨inside, UInt32.le_of_lt (missing.below i inside (Nat.lt_succ_self i)), ?_⟩
  exact fun j bound after => missing.above j bound after

/-- The numbers up to `x` are those up to the last of them. -/
theorem IsLastUpTo.countP_eq (increasing : Increasing row) {i : Nat} (last : IsLastUpTo row x i) :
    row.toList.countP (· ≤ x) = i + 1 := by
  have front : (row.toList.take (i + 1)).countP (· ≤ x) = (row.toList.take (i + 1)).length := by
    refine List.countP_eq_length.2 fun y member => decide_eq_true ?_
    obtain ⟨j, bound, rfl⟩ := List.mem_iff_getElem.1 member
    have inside := last.inside
    simp only [List.length_take, Array.length_toList] at bound
    simp only [List.getElem_take, Array.getElem_toList]
    by_cases same : j = i
    · subst same
      exact last.upTo
    · exact UInt32.le_trans (UInt32.le_of_lt (increasing.lt (by omega) inside)) last.upTo
  have back : (row.toList.drop (i + 1)).countP (· ≤ x) = 0 := by
    refine List.countP_eq_zero.2 fun y member => ?_
    obtain ⟨j, bound, rfl⟩ := List.mem_iff_getElem.1 member
    simp only [List.length_drop, Array.length_toList] at bound
    simp only [List.getElem_drop, Array.getElem_toList, decide_eq_true_eq, UInt32.not_le]
    exact last.later (i + 1 + j) (by omega) (by omega)
  have inside := last.inside
  rw [← List.take_append_drop (i + 1) row.toList, List.countP_append, front, back]
  simp only [List.length_take, Array.length_toList]
  omega

namespace LineMap

variable {bytes : List UInt8} {offset : Nat}

theorem toNat_toUInt32 {n : Nat} (small : n < UInt32.size) : n.toUInt32.toNat = n :=
  UInt32.toNat_ofNat_of_lt' small

/-- A start is the offset just after a newline. -/
theorem mem_startsFrom (short : offset + bytes.length < UInt32.size) {s : UInt32} :
    s ∈ startsFrom offset bytes ↔ ∃ i, bytes[i]? = some 10 ∧ s.toNat = offset + i + 1 := by
  induction bytes generalizing offset with
  | nil => simp [startsFrom]
  | cons byte rest ih =>
    rw [List.length_cons] at short
    have behind := @ih (offset + 1) (by omega)
    have first : s = (offset + 1).toUInt32 ↔ s.toNat = offset + 0 + 1 := by
      rw [← UInt32.toNat_inj, toNat_toUInt32 (by omega), Nat.add_zero]
    have split : (∃ i, (byte :: rest)[i]? = some 10 ∧ s.toNat = offset + i + 1) ↔
        (byte = 10 ∧ s.toNat = offset + 0 + 1) ∨ s ∈ startsFrom (offset + 1) rest := by
      rw [behind]
      constructor
      · rintro ⟨i, newline, same⟩
        cases i with
        | zero => exact .inl ⟨Option.some.inj newline, same⟩
        | succ i => exact .inr ⟨i, newline, by omega⟩
      · rintro (⟨rfl, same⟩ | ⟨i, newline, same⟩)
        · exact ⟨0, rfl, same⟩
        · exact ⟨i + 1, newline, by omega⟩
    rw [split, startsFrom]
    by_cases newline : byte = 10
    · simp only [newline, if_true, List.mem_cons, first, true_and]
    · simp only [newline, if_false, false_and, false_or]

theorem startsFrom_increasing (short : offset + bytes.length < UInt32.size) :
    (startsFrom offset bytes).Pairwise (· < ·) := by
  induction bytes generalizing offset with
  | nil => exact .nil
  | cons byte rest ih =>
    rw [List.length_cons] at short
    have behind := @ih (offset + 1) (by omega)
    rw [startsFrom]
    by_cases newline : byte = 10
    · rw [if_pos newline]
      refine List.pairwise_cons.2 ⟨fun s member => ?_, behind⟩
      obtain ⟨i, _, same⟩ := (mem_startsFrom (by omega)).1 member
      rw [UInt32.lt_iff_toNat_lt, toNat_toUInt32 (by omega)]
      omega
    · rwa [if_neg newline]

def newlinesBelow (bytes : List UInt8) (pos : Nat) : Nat := (bytes.take pos).count 10

theorem countP_startsFrom (short : offset + bytes.length < UInt32.size) (pos : UInt32) :
    (startsFrom offset bytes).countP (· ≤ pos) = newlinesBelow bytes (pos.toNat - offset) := by
  induction bytes generalizing offset with
  | nil => simp [startsFrom, newlinesBelow]
  | cons byte rest ih =>
    rw [List.length_cons] at short
    have behind := @ih (offset + 1) (by omega)
    have first : (offset + 1).toUInt32 ≤ pos ↔ offset < pos.toNat := by
      rw [UInt32.le_iff_toNat_le, toNat_toUInt32 (by omega)]
      omega
    rw [startsFrom, newlinesBelow]
    rw [newlinesBelow] at behind
    by_cases within : offset < pos.toNat
    · have next : pos.toNat - offset = (pos.toNat - (offset + 1)) + 1 := by omega
      rw [next, List.take_succ_cons, List.count_cons, ← behind]
      by_cases newline : byte = 10
      · simp only [newline, if_true, List.countP_cons, first, within, decide_true, BEq.rfl]
      · simp [newline]
    · have none : pos.toNat - offset = 0 := by omega
      have still : pos.toNat - (offset + 1) = 0 := by omega
      rw [still, List.take_zero, List.count_nil] at behind
      rw [none, List.take_zero, List.count_nil]
      by_cases newline : byte = 10
      · simp only [newline, if_true, List.countP_cons, behind, first, within, decide_false,
          Bool.false_eq_true, if_false]
      · rw [if_neg newline, behind]

theorem ofBytes_increasing (short : bytes.length < UInt32.size) :
    Increasing (ofBytes bytes).starts := by
  refine List.pairwise_cons.2 ⟨fun s member => ?_, startsFrom_increasing (by omega)⟩
  obtain ⟨i, _, same⟩ := (mem_startsFrom (by omega)).1 member
  rw [UInt32.lt_iff_toNat_lt, UInt32.toNat_zero]
  omega

/-- The line of a position is the index of the last start up to it. -/
theorem lineOf?_ofBytes (short : bytes.length < UInt32.size) (pos : UInt32) :
    ∃ i, (ofBytes bytes).lineOf? pos = some i.toUInt32 ∧
      IsLastUpTo (ofBytes bytes).starts pos i := by
  have increasing := ofBytes_increasing short
  have answer : ((ofBytes bytes).search pos).Holds (ofBytes bytes).starts pos :=
    searchBetween_holds increasing (Nat.le_refl _) .whole
  cases result : (ofBytes bytes).search pos with
  | found i =>
    rw [result] at answer
    exact ⟨i, by rw [lineOf?, result], .of_found increasing answer⟩
  | missing i =>
    rw [result] at answer
    cases i with
    | zero =>
      -- The first start is zero, and no position is below it.
      exact absurd (answer.above 0 (by simp [ofBytes]) (Nat.le_refl 0)) UInt32.not_lt_zero
    | succ i => exact ⟨i, by rw [lineOf?, result], .of_missing answer⟩

theorem eq_newlinesBelow (short : bytes.length < UInt32.size) {pos : UInt32} {i : Nat}
    (last : IsLastUpTo (ofBytes bytes).starts pos i) : i = newlinesBelow bytes pos.toNat := by
  have counted := last.countP_eq (ofBytes_increasing short)
  have behind := @countP_startsFrom bytes 0 (by omega) pos
  have first : (0 : UInt32) ≤ pos := UInt32.zero_le
  simp only [ofBytes, List.countP_cons, first, decide_true, if_true] at counted
  rw [Nat.sub_zero] at behind
  omega

theorem newlinesBelow_le (bytes : List UInt8) (pos : Nat) :
    newlinesBelow bytes pos ≤ bytes.length :=
  Nat.le_trans List.count_le_length (List.length_take_le' pos bytes)

/-- The offset just after the last newline below `pos`, or zero where there is none. -/
structure IsLineStart (bytes : List UInt8) (pos start : Nat) : Prop where
  upTo : start ≤ pos
  after : start = 0 ∨ bytes[start - 1]? = some 10
  last : ∀ i, start ≤ i → i < pos → bytes[i]? ≠ some 10

theorem IsLineStart.unique {pos start start' : Nat} (is : IsLineStart bytes pos start)
    (is' : IsLineStart bytes pos start') : start = start' := by
  have le {a b : Nat} (one : IsLineStart bytes pos a) (other : IsLineStart bytes pos b) :
      a ≤ b := by
    refine Nat.le_of_not_lt fun less => ?_
    have upTo := one.upTo
    rcases one.after with zero | newline
    · omega
    · exact other.last (a - 1) (by omega) (by omega) newline
  exact Nat.le_antisymm (le is is') (le is' is)

theorem isLineStart (short : bytes.length < UInt32.size) {pos : UInt32} {i : Nat}
    (inside : i < (ofBytes bytes).starts.size) (last : IsLastUpTo (ofBytes bytes).starts pos i) :
    IsLineStart bytes pos.toNat (ofBytes bytes).starts[i].toNat := by
  have increasing := ofBytes_increasing short
  have member (s : UInt32) : s ∈ (ofBytes bytes).starts ↔
      s = 0 ∨ ∃ k, bytes[k]? = some 10 ∧ s.toNat = 0 + k + 1 := by
    simp only [ofBytes, List.mem_toArray, List.mem_cons]
    rw [mem_startsFrom (by omega)]
  refine ⟨UInt32.le_iff_toNat_le.1 last.upTo, ?_, fun k behind before newline => ?_⟩
  · rcases (member _).1 (Array.getElem_mem inside) with zero | ⟨k, newline, same⟩
    · exact .inl (by rw [zero, UInt32.toNat_zero])
    · exact .inr (by rw [same, Nat.zero_add, Nat.add_sub_cancel, newline])
  · -- The line after that newline would start at or before the position, and later than `start`.
    have bound := (List.getElem?_eq_some_iff.1 newline).1
    have start : (k + 1).toUInt32.toNat = k + 1 := toNat_toUInt32 (by omega)
    obtain ⟨j, within, same⟩ :=
      Array.mem_iff_getElem.1 ((member (k + 1).toUInt32).2 (.inr ⟨k, newline, by omega⟩))
    have after : i < j := by
      refine Nat.lt_of_not_le fun le => ?_
      by_cases equal : j = i
      · subst equal
        rw [same] at behind
        omega
      · have earlier := increasing.lt (show j < i by omega) inside
        rw [same, UInt32.lt_iff_toNat_lt] at earlier
        omega
    have beyond := last.later j within after
    rw [same, UInt32.lt_iff_toNat_lt] at beyond
    omega

theorem locate?_eq {m : LineMap} {pos line : UInt32} {i : Nat} (given : m.lineOf? pos = some line)
    (index : line.toNat = i) (inside : i < m.starts.size) (last : IsLastUpTo m.starts pos i) :
    m.locate? pos = some ⟨i, pos.toNat - m.starts[i].toNat⟩ := by
  have start : m.starts[line.toNat]? = some m.starts[i] := by
    rw [index, Array.getElem?_eq_getElem inside]
  simp only [locate?, given, start, last.upTo, if_true]
  rw [index, UInt32.toNat_sub_of_le _ _ last.upTo]

/-- In every text shorter than 2^32 bytes each position, also one past the end, has a line and a
column: the line is the number of newlines below the position, and the column counts from just after
the last of them. -/
theorem ofText_locates (text : String) (pos : UInt32) (short : text.utf8ByteSize < UInt32.size) :
    ∃ start, IsLineStart text.toUTF8.data.toList pos.toNat start ∧
      ((ofText text).lineOf? pos).map UInt32.toNat =
        some (newlinesBelow text.toUTF8.data.toList pos.toNat) ∧
      (ofText text).locate? pos =
        some ⟨newlinesBelow text.toUTF8.data.toList pos.toNat, pos.toNat - start⟩ := by
  have length : text.toUTF8.data.toList.length < UInt32.size := short
  obtain ⟨i, line, last⟩ := lineOf?_ofBytes length pos
  obtain rfl := eq_newlinesBelow length last
  have index := toNat_toUInt32 (Nat.lt_of_le_of_lt (newlinesBelow_le _ pos.toNat) length)
  refine ⟨_, isLineStart length last.inside last, ?_, locate?_eq line index last.inside last⟩
  rw [ofText, line, Option.map_some, index]

/-- Two newlines in a row end a line each, and the line after the last newline goes on past the end
of the text. -/
theorem emptyLines_locates :
    "a\n\nb\n".utf8ByteSize < UInt32.size ∧
      (ofText "a\n\nb\n").locate? 2 = some ⟨1, 0⟩ ∧
      (ofText "a\n\nb\n").locate? 9 = some ⟨3, 4⟩ := by
  have short : "a\n\nb\n".utf8ByteSize < UInt32.size := by decide +kernel
  obtain ⟨second, isSecond, _, onNewline⟩ := ofText_locates "a\n\nb\n" 2 short
  obtain ⟨fourth, isFourth, _, pastEnd⟩ := ofText_locates "a\n\nb\n" 9 short
  obtain rfl : second = 2 :=
    isSecond.unique ⟨by decide, by decide +kernel, fun i behind before =>
      absurd before (Nat.not_lt.2 behind)⟩
  obtain rfl : fourth = 5 :=
    isFourth.unique ⟨by decide, by decide +kernel, fun i behind _ newline => by
      have bound := (List.getElem?_eq_some_iff.1 newline).1
      exact absurd bound (Nat.not_lt.2 behind)⟩
  exact ⟨short, onNewline.trans (by decide +kernel), pastEnd.trans (by decide +kernel)⟩

end LineMap

end ScriptLang
