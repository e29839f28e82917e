import ScriptLang.Decimal.Integer
import ScriptLang.Diagnostic.Catalogue

/-! The arguments of a template are put in one after another, and each time the whole text is searched.
This puts each argument where the template names it and changes nothing else, as long as the arguments
in place never form the placeholder of a later one. For the messages of the catalogue it is enough that
no argument holds the placeholder of a later one. -/

namespace ScriptLang

def closing (i : Nat) : List Char := Nat.toDigits 10 i ++ ['}']

theorem placeholder_eq (i : Nat) : placeholder i = '{' :: closing i := rfl

theorem digit_or_brace {i : Nat} {c : Char} (member : c ∈ closing i) : c.isDigit = true ∨ c = '}' := by
  rcases List.mem_append.1 member with digit | last
  · exact .inl (Nat.isDigit_of_mem_toDigits (by decide) (by decide) digit)
  · exact .inr (List.mem_singleton.1 last)

theorem open_not_mem_closing (i : Nat) : '{' ∉ closing i := fun member =>
  absurd (digit_or_brace member) (by decide)

theorem takeWhile_closing (i : Nat) (rest : List Char) :
    (closing i ++ rest).takeWhile (· != '}') = Nat.toDigits 10 i := by
  rw [closing, List.append_assoc, List.takeWhile_append_of_pos]
  · simp
  · intro c digit
    have isDigit := Nat.isDigit_of_mem_toDigits (by decide) (by decide) digit
    rw [bne_iff_ne]
    rintro rfl
    contradiction

/-- The number of the placeholder in front of a text. -/
def hole? : List Char → Option Nat
  | '{' :: cs =>
    (Decimal.readDigits 0 (cs.takeWhile (· != '}'))).filter fun i =>
      (placeholder i).isPrefixOf ('{' :: cs)
  | _ => none

theorem hole?_eq_some_iff {text : List Char} {i : Nat} :
    hole? text = some i ↔ placeholder i <+: text := by
  constructor
  · intro found
    unfold hole? at found
    split at found
    · exact List.isPrefixOf_iff_prefix.1 (Option.filter_eq_some_iff.1 found).2
    · contradiction
  · rintro ⟨rest, rfl⟩
    have number : Decimal.readDigits 0 (Nat.toDigits 10 i) = some i := Decimal.readDigits_writeNat i
    rw [placeholder_eq, List.cons_append, hole?, takeWhile_closing, number]
    exact Option.filter_eq_some_iff.2
      ⟨rfl, List.isPrefixOf_iff_prefix.2 (List.prefix_append (placeholder i) rest)⟩

theorem placeholder_unique {text : List Char} {i j : Nat} (first : placeholder i <+: text)
    (second : placeholder j <+: text) : i = j :=
  Option.some.inj ((hole?_eq_some_iff.2 first).symm.trans (hole?_eq_some_iff.2 second))

inductive Piece where
  /-- A character that stands for itself. -/
  | char (c : Char)
  /-- The placeholder for an argument. -/
  | hole (i : Nat)
  deriving DecidableEq

/-- The pieces of a text, after `skip` characters that belong to a piece already read. -/
def piecesFrom (skip : Nat) : List Char → List Piece
  | [] => []
  | c :: cs =>
    match skip with
    | k + 1 => piecesFrom k cs
    | 0 =>
      match hole? (c :: cs) with
      | some i => .hole i :: piecesFrom ((placeholder i).length - 1) cs
      | none => .char c :: piecesFrom 0 cs

def pieces (text : List Char) : List Piece := piecesFrom 0 text

theorem piecesFrom_append (front rest : List Char) :
    piecesFrom front.length (front ++ rest) = pieces rest := by
  induction front with
  | nil => rfl
  | cons c front ih => exact ih

theorem pieces_hole (i : Nat) (rest : List Char) :
    pieces (placeholder i ++ rest) = .hole i :: pieces rest := by
  have found : hole? ('{' :: (closing i ++ rest)) = some i :=
    hole?_eq_some_iff.2 (List.prefix_append (placeholder i) rest)
  rw [pieces, placeholder_eq, List.cons_append, piecesFrom, found]
  exact congrArg (List.cons _) (piecesFrom_append (closing i) rest)

theorem pieces_char {c : Char} {rest : List Char} (plain : ∀ i, ¬placeholder i <+: c :: rest) :
    pieces (c :: rest) = .char c :: pieces rest := by
  have none : hole? (c :: rest) = none :=
    Option.eq_none_iff_forall_ne_some.2 fun i found => plain i (hole?_eq_some_iff.1 found)
  rw [pieces, piecesFrom, none]
  rfl

/-- A text is read placeholder by placeholder and character by character. -/
theorem readingInduction {P : List Char → Prop} (nil : P [])
    (hole : ∀ i rest, P rest → P (placeholder i ++ rest))
    (char : ∀ c rest, (∀ i, ¬placeholder i <+: c :: rest) → P rest → P (c :: rest))
    (text : List Char) : P text := by
  induction h : text.length using Nat.strongRecOn generalizing text with
  | ind n ih =>
    subst h
    cases text with
    | nil => exact nil
    | cons c rest =>
      by_cases starts : ∃ i, placeholder i <+: c :: rest
      · obtain ⟨i, behind, split⟩ := starts
        have shorter : behind.length < (c :: rest).length := by
          rw [← split, List.length_append, placeholder_eq, List.length_cons]
          omega
        rw [← split]
        exact hole i behind (ih _ shorter behind rfl)
      · exact char c rest (fun i starts' => starts ⟨i, starts'⟩) (ih _ (by simp) rest rfl)

def Piece.fill (args : List String) : Piece → List Char
  | char c => [c]
  | hole i => (args[i]?.map String.toList).getD (placeholder i)

def fillPieces (args : List String) (ps : List Piece) : List Char := ps.flatMap (Piece.fill args)

/-- The template with each placeholder replaced by its argument. What the arguments are makes no
difference to what is replaced. -/
def fillAtOnce (template : String) (args : List String) : String :=
  String.ofList (fillPieces args (pieces template.toList))

theorem fillPieces_cons (args : List String) (p : Piece) (ps : List Piece) :
    fillPieces args (p :: ps) = p.fill args ++ fillPieces args ps := List.flatMap_cons

theorem toList_fillAtOnce (template : String) (args : List String) :
    (fillAtOnce template args).toList = fillPieces args (pieces template.toList) :=
  String.toList_ofList

/-- Without arguments a template stays as it is. -/
theorem fillPieces_nil (text : List Char) : fillPieces [] (pieces text) = text := by
  induction text using readingInduction with
  | nil => rfl
  | hole i rest ih =>
    rw [pieces_hole, fillPieces_cons, ih]
    rfl
  | char c rest plain ih =>
    rw [pieces_char plain, fillPieces_cons, ih]
    rfl

def occurrences (pattern : List Char) : List Char → Nat
  | [] => 0
  | c :: cs => (if pattern.isPrefixOf (c :: cs) then 1 else 0) + occurrences pattern cs

theorem occurrences_of_starts {pattern : List Char} {c : Char} {cs : List Char}
    (starts : pattern <+: c :: cs) : occurrences pattern (c :: cs) = occurrences pattern cs + 1 := by
  rw [occurrences, if_pos (List.isPrefixOf_iff_prefix.2 starts), Nat.add_comm]

theorem occurrences_of_not_starts {pattern : List Char} {c : Char} {cs : List Char}
    (other : ¬pattern <+: c :: cs) : occurrences pattern (c :: cs) = occurrences pattern cs := by
  rw [occurrences, if_neg (fun starts => other (List.isPrefixOf_iff_prefix.1 starts)), Nat.zero_add]

theorem occurrences_le_append (pattern front rest : List Char) :
    occurrences pattern rest ≤ occurrences pattern (front ++ rest) := by
  induction front with
  | nil => exact Nat.le_refl _
  | cons c front ih => exact Nat.le_trans ih (Nat.le_add_left _ _)

theorem occurrences_eq_zero {pattern text : List Char} (nowhere : ¬pattern <:+: text) :
    occurrences pattern text = 0 := by
  induction text with
  | nil => rfl
  | cons c cs ih =>
    rw [occurrences_of_not_starts fun starts => nowhere starts.isInfix]
    exact ih fun inside => nowhere (List.infix_cons inside)

/-- A placeholder stands only where its first brace stands. -/
theorem occurrences_append_of_not_mem {front : List Char} (noBrace : '{' ∉ front) (k : Nat)
    (rest : List Char) :
    occurrences (placeholder k) (front ++ rest) = occurrences (placeholder k) rest := by
  induction front with
  | nil => rfl
  | cons c front ih =>
    obtain ⟨other, noMore⟩ := List.ne_and_not_mem_of_not_mem_cons noBrace
    rw [List.cons_append, occurrences_of_not_starts, ih noMore]
    exact fun starts => other (List.cons_prefix_cons.1 starts).1

theorem occurrences_placeholder (k i : Nat) (rest : List Char) :
    occurrences (placeholder k) (placeholder i ++ rest) =
      (if i = k then 1 else 0) + occurrences (placeholder k) rest := by
  have behind := occurrences_append_of_not_mem (open_not_mem_closing i) k rest
  have starts : placeholder i <+: '{' :: (closing i ++ rest) := List.prefix_append (placeholder i) rest
  rw [placeholder_eq i, List.cons_append]
  split
  next same => rw [occurrences_of_starts (same ▸ starts), behind, Nat.add_comm]
  next other =>
    rw [occurrences_of_not_starts fun starts' => other (placeholder_unique starts starts'), behind,
      Nat.zero_add]

/-- A template has a placeholder as often as it is read there. -/
theorem occurrences_eq_count (k : Nat) (text : List Char) :
    occurrences (placeholder k) text = (pieces text).count (.hole k) := by
  induction text using readingInduction with
  | nil => rfl
  | hole i rest ih =>
    rw [pieces_hole, occurrences_placeholder, ih, List.count_cons, Nat.add_comm]
    simp
  | char c rest plain ih =>
    rw [pieces_char plain, occurrences_of_not_starts (plain k), ih, List.count_cons]
    rfl

theorem replaceFrom_append (pattern replacement front rest : List Char) :
    replaceFrom pattern replacement front.length (front ++ rest) =
      replaceAll pattern replacement rest := by
  induction front with
  | nil => rfl
  | cons c front ih => exact ih

theorem replaceAll_placeholder (k : Nat) (replacement rest : List Char) :
    replaceAll (placeholder k) replacement (placeholder k ++ rest) =
      replacement ++ replaceAll (placeholder k) replacement rest := by
  have starts : (placeholder k).isPrefixOf ('{' :: (closing k ++ rest)) = true :=
    List.isPrefixOf_iff_prefix.2 (List.prefix_append (placeholder k) rest)
  show replaceFrom (placeholder k) replacement 0 ('{' :: (closing k ++ rest)) = _
  rw [replaceFrom, if_pos starts]
  exact congrArg (replacement ++ ·) (replaceFrom_append _ _ (closing k) rest)

/-- Where the pattern does not begin, the text stays. -/
theorem replaceAll_append {pattern front rest : List Char} (replacement : List Char)
    (same : occurrences pattern (front ++ rest) = occurrences pattern rest) :
    replaceAll pattern replacement (front ++ rest) =
      front ++ replaceAll pattern replacement rest := by
  induction front with
  | nil => rfl
  | cons c front ih =>
    have le := occurrences_le_append pattern front rest
    by_cases starts : pattern <+: c :: (front ++ rest)
    · rw [List.cons_append, occurrences_of_starts starts] at same
      omega
    · rw [List.cons_append, occurrences_of_not_starts starts] at same
      have plain : pattern.isPrefixOf (c :: (front ++ rest)) = false :=
        Bool.eq_false_iff.2 fun starts' => starts (List.isPrefixOf_iff_prefix.1 starts')
      show replaceFrom pattern replacement 0 (c :: (front ++ rest)) = _
      rw [replaceFrom, plain]
      exact congrArg (List.cons c) (ih same)

section

variable (done : List String)

theorem fill_hole_length : Piece.fill done (.hole done.length) = placeholder done.length := by
  simp [Piece.fill]

theorem fill_hole_concat (a : String) :
    Piece.fill (done ++ [a]) (.hole done.length) = a.toList := by
  simp [Piece.fill]

theorem fill_concat_of_ne (a : String) {p : Piece} (other : p ≠ .hole done.length) :
    p.fill (done ++ [a]) = p.fill done := by
  cases p with
  | char c => rfl
  | hole i =>
    have ne : i ≠ done.length := fun same => other (congrArg Piece.hole same)
    have same : (done ++ [a])[i]? = done[i]? := by
      rw [List.getElem?_append]
      split
      · rfl
      · rw [List.getElem?_eq_none (by simp; omega), List.getElem?_eq_none (by omega)]
    rw [Piece.fill, Piece.fill, same]

/-- The next placeholder stands at least where it is read. -/
theorem count_le_occurrences (ps : List Piece) :
    ps.count (.hole done.length) ≤ occurrences (placeholder done.length) (fillPieces done ps) := by
  induction ps with
  | nil => exact Nat.le_refl _
  | cons p ps ih =>
    rw [fillPieces_cons, List.count_cons]
    by_cases isNext : p = .hole done.length
    · rw [isNext, fill_hole_length, occurrences_placeholder, if_pos rfl, beq_self_eq_true, if_pos rfl]
      omega
    · rw [if_neg (by simpa using isNext)]
      exact Nat.le_trans ih (occurrences_le_append _ _ _)

/-- If the next placeholder stands only where it is read, then only there the next argument is put
in. -/
theorem replaceAll_fillPieces (a : String) {ps : List Piece}
    (own : occurrences (placeholder done.length) (fillPieces done ps) = ps.count (.hole done.length)) :
    replaceAll (placeholder done.length) a.toList (fillPieces done ps) =
      fillPieces (done ++ [a]) ps := by
  induction ps with
  | nil => rfl
  | cons p ps ih =>
    -- No piece has fewer occurrences than readings, so equality of the sums is equality in the rest.
    have least := count_le_occurrences done ps
    rw [fillPieces_cons, List.count_cons] at own
    rw [fillPieces_cons, fillPieces_cons]
    by_cases isNext : p = .hole done.length
    · rw [isNext, fill_hole_length, occurrences_placeholder, if_pos rfl, beq_self_eq_true,
        if_pos rfl] at own
      rw [isNext, fill_hole_length, fill_hole_concat, replaceAll_placeholder, ih (by omega)]
    · rw [if_neg (by simpa using isNext), Nat.add_zero] at own
      have grows := occurrences_le_append (placeholder done.length) (p.fill done) (fillPieces done ps)
      have rest := Nat.le_antisymm (own ▸ grows) least
      rw [replaceAll_append a.toList (own.trans rest.symm), ih rest, fill_concat_of_ne done a isNext]

end

/-- With the first `k` arguments in place, the placeholder of argument `k` stands as often as in the
template, so none comes from the arguments. -/
def Undisturbed (template : String) (args : List String) : Prop :=
  ∀ k < args.length, occurrences (placeholder k) (fillAtOnce template (args.take k)).toList =
    occurrences (placeholder k) template.toList

theorem fillFrom_eq {template : String} {args : List String} (undisturbed : Undisturbed template args)
    {done rest : List String} (split : done ++ rest = args) :
    fillFrom done.length (fillPieces done (pieces template.toList)) rest =
      fillPieces args (pieces template.toList) := by
  -- On the arguments that are still to be put in. With none in place, the text is the template.
  induction rest generalizing done with
  | nil =>
    rw [← split, List.append_nil]
    rfl
  | cons a rest ih =>
    have own := undisturbed done.length (by rw [← split]; simp)
    rw [← split, List.take_left, toList_fillAtOnce] at own
    have next : done ++ [a] ++ rest = args := by rw [List.append_assoc]; exact split
    have filled := ih next
    rw [fillFrom, replaceAll_fillPieces done a (own.trans (occurrences_eq_count _ _))]
    rwa [List.length_append] at filled

theorem fillTemplate_eq {template : String} {args : List String}
    (undisturbed : Undisturbed template args) :
    fillTemplate template args = fillAtOnce template args := by
  have whole := fillFrom_eq undisturbed (List.nil_append args)
  rw [fillPieces_nil] at whole
  exact congrArg String.ofList whole

def isNeutral (c : Char) : Bool := !(c.isDigit || c == '{' || c == '}')

/-- Braces and digits stand in placeholders only, and no two of these touch. -/
def isFramed : List Piece → Bool
  | [] | [.hole _] => true
  | .char c :: ps | .hole _ :: .char c :: ps => isNeutral c && isFramed ps
  | .hole _ :: .hole _ :: _ => false

/-- No argument holds the placeholder of a later one. -/
def NamesNoLater (args : List String) : Prop :=
  ∀ k < args.length, ∀ a ∈ args.take k, ¬placeholder k <:+: a.toList

theorem not_mem_placeholder {c : Char} (neutral : isNeutral c = true) (k : Nat) :
    c ∉ placeholder k := by
  intro member
  rw [isNeutral] at neutral
  rcases List.mem_cons.1 member with rfl | behind
  · contradiction
  · rcases digit_or_brace behind with digit | rfl
    · simp [digit] at neutral
    · contradiction

theorem prefix_append_cons_iff {pattern : List Char} {c : Char} (other : c ∉ pattern)
    (front rest : List Char) :
    pattern <+: front ++ c :: rest ↔ pattern <+: front := by
  refine ⟨fun starts => ?_, fun starts => starts.trans (List.prefix_append _ _)⟩
  have upTo : front ++ [c] <+: front ++ c :: rest := ⟨rest, by simp⟩
  rcases List.prefix_or_prefix_of_prefix starts upTo with short | long
  · rcases List.prefix_concat_iff.1 short with rfl | within
    · exact absurd (by simp) other
    · exact within
  · exact absurd (long.subset (by simp)) other

theorem occurrences_neutral {c : Char} (neutral : isNeutral c = true) (k : Nat)
    (front rest : List Char) :
    occurrences (placeholder k) (front ++ c :: rest) =
      occurrences (placeholder k) front + occurrences (placeholder k) rest := by
  have other := not_mem_placeholder neutral k
  induction front with
  | nil =>
    rw [List.nil_append, occurrences_of_not_starts, occurrences, Nat.zero_add]
    exact fun starts => other ((List.cons_prefix_cons.1 starts).1 ▸ List.mem_cons_self)
  | cons d front ih =>
    have same := prefix_append_cons_iff other (d :: front) rest
    rw [List.cons_append] at same ⊢
    by_cases starts : placeholder k <+: d :: front
    · rw [occurrences_of_starts starts, occurrences_of_starts (same.2 starts), ih]
      omega
    · rw [occurrences_of_not_starts starts, occurrences_of_not_starts (starts ∘ same.1), ih]

theorem occurrences_fill {args : List String} (apart : NamesNoLater args) {k : Nat}
    (isArg : k < args.length) (i : Nat) :
    occurrences (placeholder k) (Piece.fill (args.take k) (.hole i)) = if i = k then 1 else 0 := by
  rw [Piece.fill]
  cases get : (args.take k)[i]? with
  | none =>
    have alone := occurrences_placeholder k i []
    rwa [List.append_nil] at alone
  | some a =>
    have earlier : i < k := by
      have inside := (List.getElem?_eq_some_iff.1 get).1
      rw [List.length_take] at inside
      omega
    rw [if_neg (by omega)]
    exact occurrences_eq_zero (apart k isArg a (List.mem_of_getElem? get))

theorem occurrences_framed {args : List String} (apart : NamesNoLater args) {k : Nat}
    (isArg : k < args.length) {ps : List Piece} (framed : isFramed ps = true) :
    occurrences (placeholder k) (fillPieces (args.take k) ps) = ps.count (.hole k) := by
  fun_induction isFramed ps with
  | case1 => rfl
  | case2 i =>
    rw [fillPieces_cons, fillPieces, List.flatMap_nil, List.append_nil,
      occurrences_fill apart isArg i, List.count_singleton]
    simp
  | case3 c ps ih =>
    obtain ⟨neutral, behind⟩ := Bool.and_eq_true_iff.1 framed
    have split := occurrences_neutral neutral k [] (fillPieces (args.take k) ps)
    rw [fillPieces_cons]
    exact split.trans ((Nat.zero_add _).trans (ih behind))
  | case4 i c ps ih =>
    obtain ⟨neutral, behind⟩ := Bool.and_eq_true_iff.1 framed
    have split := occurrences_neutral neutral k (Piece.fill (args.take k) (.hole i))
      (fillPieces (args.take k) ps)
    rw [occurrences_fill apart isArg i, ih behind] at split
    rw [fillPieces_cons, fillPieces_cons, List.count_cons, List.count_cons]
    refine split.trans ?_
    simp [Nat.add_comm]
  | case5 => contradiction

theorem isFramed_of_spelled {text : String} {cs : List Char} (spelled : text = String.ofList cs)
    (framed : isFramed (pieces cs) = true) : isFramed (pieces text.toList) = true := by
  rw [spelled, String.toList_ofList]
  exact framed

theorem catalogue_framed : ∀ m ∈ Message.catalogue, isFramed (pieces m.template.toList) = true := by
  simp only [Message.catalogue, List.forall_mem_cons]
  and_intros
  -- Reading the characters back from a string is slow, so each template is given as its characters.
  all_goals first
    | exact isFramed_of_spelled rfl (by decide +kernel)
    | exact isFramed_of_spelled String.ofList_append.symm (by decide +kernel)
    | exact List.forall_mem_nil _

theorem undisturbed_message {m : Message} (listed : m ∈ Message.catalogue) {args : List String}
    (apart : NamesNoLater args) : Undisturbed m.template args := by
  intro k isArg
  rw [toList_fillAtOnce, occurrences_framed apart isArg (catalogue_framed m listed),
    occurrences_eq_count]

/-- Each placeholder with an argument becomes the argument and everything else stays, as long as the
arguments in place never form the placeholder of a later one. A message of the catalogue is filled so
if no argument holds the placeholder of a later one. -/
theorem fillTemplate_verbatim (template : String) (args : List String)
    (apart : Undisturbed template args ∨
      (∃ m ∈ Message.catalogue, m.template = template) ∧ NamesNoLater args) :
    fillTemplate template args = fillAtOnce template args := by
  rcases apart with undisturbed | ⟨⟨m, listed, rfl⟩, apart⟩
  · exact fillTemplate_eq undisturbed
  · exact fillTemplate_eq (undisturbed_message listed apart)

/-- Placeholders in a name are harmless if no later argument has their number. -/
theorem fillTemplate_verbatim_ownName :
    NamesNoLater ["\x7b0\x7d\x7b3\x7d", "2", "1"] ∧
      fillTemplate Message.wrongArgumentCount.template ["\x7b0\x7d\x7b3\x7d", "2", "1"] =
        fillAtOnce Message.wrongArgumentCount.template ["\x7b0\x7d\x7b3\x7d", "2", "1"] ∧
      Undisturbed "\x7b1\x7d, \x7b0\x7d, \x7b2\x7d" ["\x7b2\x7d", "\x7b0\x7d"] ∧
      fillTemplate "\x7b1\x7d, \x7b0\x7d, \x7b2\x7d" ["\x7b2\x7d", "\x7b0\x7d"] =
        fillAtOnce "\x7b1\x7d, \x7b0\x7d, \x7b2\x7d" ["\x7b2\x7d", "\x7b0\x7d"] := by
  have listed : Message.wrongArgumentCount ∈ Message.catalogue := by
    simp [Message.catalogue]
  have apart : NamesNoLater ["\x7b0\x7d\x7b3\x7d", "2", "1"] := by
    rw [NamesNoLater]
    decide +kernel
  have undisturbed :
      Undisturbed "\x7b1\x7d, \x7b0\x7d, \x7b2\x7d" ["\x7b2\x7d", "\x7b0\x7d"] := by
    rw [Undisturbed]
    decide +kernel
  exact ⟨apart, fillTemplate_verbatim _ _ (.inr ⟨⟨_, listed, rfl⟩, apart⟩), undisturbed,
    fillTemplate_verbatim _ _ (.inl undisturbed)⟩

/-- A name that is the placeholder of the next argument is replaced by it. -/
theorem fillTemplate_rescans_name :
    fillAtOnce Message.wrongArgumentCount.template ["\x7b1\x7d", "2", "1"] =
      "Function '\x7b1\x7d' requires 2 arguments but was given 1." ∧
    fillTemplate Message.wrongArgumentCount.template ["\x7b1\x7d", "2", "1"] =
      "Function '2' requires 2 arguments but was given 1." := by
  decide +kernel

end ScriptLang
