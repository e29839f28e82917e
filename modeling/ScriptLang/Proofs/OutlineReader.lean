import Mathlib.Data.List.Forall2
import ScriptLang.Proofs.PrintedLexemes

/-! A reader goes once through a row of lexemes. What it cannot finish yet, it keeps pending: operators
with their left operands, targets of assignments, open parentheses and calls. A lexeme that binds
less tightly than a pending operator finishes it, so that operators associate to the left. -/

namespace ScriptLang

open Source (Kind)

/-- The tree of an expression as far as its text can show it: symbols by their names and operators by
their tokens. -/
inductive Outline where
  | error
  | literal (value : Value)
  | name (name : String)
  | assign (target : String) (value : Outline)
  | unary (token : Kind) (operand : Outline)
  | binary (left : Outline) (token : Kind) (right : Outline)
  | range (lower upper : Outline)
  | call (callee : String) (args : List Outline)
  | convert (target : Ty) (value : Outline)
  deriving Inhabited

def tightness (token : Kind) : Nat :=
  ((BinaryOp.table.find? (·.token = token)).map (·.action.precedence)).getD 1

/-- Operators with one token bind equally. -/
theorem tightness_token : ∀ op ∈ BinaryOp.table, tightness op.token = op.action.precedence := by
  decide

theorem tightness_pos (token : Kind) : 0 < tightness token := by cases token <;> decide

theorem tightness_lt (token : Kind) : tightness token < unaryPrecedence := by
  cases token <;> decide

namespace Outline

/-- What is begun and waits for an operand. -/
inductive Pending where
  | sign (token : Kind)
  | left (operand : Outline) (token : Kind)
  | target (name : String)
  | group
  | args (callee : String) (done : List Outline)

/-- An operand comes next, or it is there and nothing is known of what follows. In both cases the
innermost pending form is the first one. -/
inductive ReadState where
  | awaiting (pending : List Pending)
  | holding (operand : Outline) (pending : List Pending)

def ofWord (cs : List Char) : Outline :=
  match Decimal.readDigits 0 cs, Value.readBool? cs with
  | some n, _ => literal (.int (Int64.ofNat n))
  | none, some b => literal (.bool b)
  | none, none => name (String.ofList cs)

def applied (callee : String) (args : List Outline) : Outline :=
  match Ty.ofName? callee, args with
  | some t, [value] => convert t value
  | _, _ => call callee args

theorem applied_of_type {f : String} {t : Ty} (isType : Ty.ofName? f = some t) (o : Outline) :
    applied f [o] = convert t o := by
  unfold applied
  rw [isType]

theorem applied_of_no_type {f : String} (noType : Ty.ofName? f = none) (os : List Outline) :
    applied f os = call f os := by
  unfold applied
  rw [noType]

/-- Finishes the pending forms that bind at least as tightly as what comes next. At level zero these
are all up to an open parenthesis. -/
def reduce (level : Nat) : Outline → List Pending → Outline × List Pending
  | o, .sign token :: ps => reduce level (unary token o) ps
  | o, .left l token :: ps =>
    if level ≤ tightness token then reduce level (binary l token o) ps
    else (o, .left l token :: ps)
  | o, .target x :: ps =>
    if level = 0 then reduce level (assign x o) ps else (o, .target x :: ps)
  | o, .group :: ps => (o, .group :: ps)
  | o, .args f done :: ps => (o, .args f done :: ps)
  | o, [] => (o, [])

/-- An operator takes what is finished as its left operand. -/
def operate (token : Kind) (finished : Outline × List Pending) : ReadState :=
  .awaiting (.left finished.1 token :: finished.2)

def close? : Outline × List Pending → Option ReadState
  | (o, .group :: ps) => some (.holding o ps)
  | (o, .args f done :: ps) => some (.holding (applied f (done ++ [o])) ps)
  | _ => none

def nextArg? : Outline × List Pending → Option ReadState
  | (o, .args f done :: ps) => some (.awaiting (.args f (done ++ [o]) :: ps))
  | _ => none

def finish? : Outline × List Pending → Option Outline
  | (o, []) => some o
  | _ => none

def step? : Lexeme → ReadState → Option ReadState
  | .word cs, .awaiting ps => some (.holding (ofWord cs) ps)
  | .quoted cs, .awaiting ps => some (.holding (literal (.string (String.ofList cs))) ps)
  | .sign token, .awaiting ps => some (.awaiting (.sign token :: ps))
  | .opening, .awaiting ps => some (.awaiting (.group :: ps))
  | .closing, .awaiting (.args f [] :: ps) => some (.holding (applied f []) ps)
  | .opening, .holding (name f) ps => some (.awaiting (.args f [] :: ps))
  | .becomes, .holding (name x) ps => some (.awaiting (.target x :: ps))
  | .operator token, .holding o ps => some (operate token (reduce (tightness token) o ps))
  | .closing, .holding o ps => close? (reduce 0 o ps)
  | .comma, .holding o ps => nextArg? (reduce 0 o ps)
  | _, _ => none

def read? : List Lexeme → ReadState → Option Outline
  | [], .holding o ps => finish? (reduce 0 o ps)
  | [], .awaiting _ => none
  | t :: ts, state => (step? t state).bind (read? ts)

/-- Behind an operand there is no word. -/
theorem no_word_behind {ts : List Lexeme} {o result : Outline} {ps : List Pending}
    (readable : read? ts (.holding o ps) = some result) : ∀ t ∈ ts.head?, t.isWord = false := by
  cases ts with
  | nil => exact fun t isHead => by contradiction
  | cons u ts =>
    intro t isHead
    obtain rfl : u = t := Option.some.inj isHead
    cases u with
    | word cs => contradiction
    | _ => rfl

/-- The lexemes of what can be read are a row. -/
theorem row_of_read {ts : List Lexeme} {state : ReadState} {result : Outline}
    (proper : ∀ t ∈ ts, t.Proper) (readable : read? ts state = some result) : Lexeme.Row ts := by
  induction ts generalizing state with
  | nil => trivial
  | cons t ts ih =>
    obtain ⟨first, rest⟩ := List.forall_mem_cons.1 proper
    obtain ⟨next, stepped, readable⟩ := Option.bind_eq_some_iff.1 readable
    refine ⟨first, fun isWord => ?_, ih rest readable⟩
    cases t with
    | word cs =>
      cases state with
      | awaiting ps =>
        obtain rfl : ReadState.holding (ofWord cs) ps = next := Option.some.inj stepped
        exact no_word_behind readable
      | holding o ps => contradiction
    | _ => contradiction

/-- No pending form is finished by an operator of this level or above. -/
def Waits (level : Nat) (ps : List Pending) : Prop :=
  ∀ token o, level ≤ tightness token → reduce (tightness token) o ps = (o, ps)

/-- An operand of this level ends before these lexemes. -/
def EndsBefore (level : Nat) : List Lexeme → Prop
  | .operator token :: _ => tightness token ≤ level
  | .closing :: _ | .comma :: _ | [] => True
  | .word _ :: _ | .quoted _ :: _ | .sign _ :: _ | .becomes :: _ | .opening :: _ => False

/-- In a place of this level, the lexemes are read as one operand. -/
def ReadsAt (level : Nat) (ts : List Lexeme) (o : Outline) : Prop :=
  ∀ rest ps, Waits level ps → EndsBefore level rest →
    read? (ts ++ rest) (.awaiting ps) = read? rest (.holding o ps)

variable {level level' : Nat} {ts us rest : List Lexeme} {o o' l r : Outline} {ps ps' : List Pending}
  {token : Kind}

theorem Waits.mono (le : level ≤ level') (waits : Waits level ps) : Waits level' ps :=
  fun token o above => waits token o (Nat.le_trans le above)

theorem EndsBefore.mono (le : level ≤ level') (ends : EndsBefore level rest) :
    EndsBefore level' rest := by
  cases rest with
  | nil => trivial
  | cons t rest =>
    cases t with
    | operator token => exact Nat.le_trans ends le
    | _ => exact ends

/-- Where an operand ends, it does not matter whether pending forms are finished already. -/
theorem read?_congr (ends : EndsBefore level rest)
    (same : ∀ next ≤ level, reduce next o ps = reduce next o' ps') :
    read? rest (.holding o ps) = read? rest (.holding o' ps') := by
  have atEnd : reduce 0 o ps = reduce 0 o' ps' := same 0 (Nat.zero_le level)
  cases rest with
  | nil => exact congrArg finish? atEnd
  | cons t rest =>
    cases t with
    | operator token =>
      have atOperator := same (tightness token) ends
      exact congrArg (fun finished => (some (operate token finished)).bind (read? rest)) atOperator
    | closing => exact congrArg (fun finished => (close? finished).bind (read? rest)) atEnd
    | comma => exact congrArg (fun finished => (nextArg? finished).bind (read? rest)) atEnd
    | _ => exact ends.elim

theorem ReadsAt.mono (le : level ≤ level') (reads : ReadsAt level' ts o) : ReadsAt level ts o :=
  fun rest ps waits ends => reads rest ps (waits.mono le) (ends.mono le)

theorem ReadsAt.word (cs : List Char) : ReadsAt level [.word cs] (ofWord cs) :=
  fun _ _ _ _ => rfl

theorem ReadsAt.quoted (cs : List Char) :
    ReadsAt level [.quoted cs] (literal (.string (String.ofList cs))) :=
  fun _ _ _ _ => rfl

/-- Parentheses make an operand of any level. -/
theorem ReadsAt.group (reads : ReadsAt 0 ts o) :
    ReadsAt level (.opening :: (ts ++ [.closing])) o := by
  intro rest ps waits ends
  have inside : read? (ts ++ .closing :: rest) (.awaiting (.group :: ps)) =
      read? (.closing :: rest) (.holding o (.group :: ps)) := reads _ _ (fun _ _ _ => rfl) trivial
  rw [List.cons_append, List.append_assoc]
  exact inside

theorem ReadsAt.sign (reads : ReadsAt unaryPrecedence ts o) :
    ReadsAt level (.sign token :: ts) (.unary token o) := by
  intro rest ps waits ends
  have below : EndsBefore unaryPrecedence rest := by
    cases rest with
    | nil => trivial
    | cons t rest =>
      cases t with
      | operator token => exact Nat.le_of_lt (tightness_lt token)
      | _ => exact ends
  have never : Waits unaryPrecedence (.sign token :: ps) := fun token' _ above =>
    absurd above (Nat.not_le.2 (tightness_lt token'))
  calc read? (.sign token :: ts ++ rest) (.awaiting ps)
      = read? (ts ++ rest) (.awaiting (.sign token :: ps)) := rfl
    _ = read? rest (.holding o (.sign token :: ps)) := reads rest _ never below
    _ = read? rest (.holding (.unary token o) ps) := read?_congr below fun _ _ => rfl

/-- The left operand is read at the level of the operator, the right one above it. -/
theorem ReadsAt.binary (left : ReadsAt (tightness token) ts l)
    (right : ReadsAt (tightness token + 1) us r) :
    ReadsAt (tightness token) (ts ++ .operator token :: us) (.binary l token r) := by
  intro rest ps waits ends
  -- an operator above this level goes to the right operand, one of this level finishes what pends
  have pending : Waits (tightness token + 1) (.left l token :: ps) := by
    intro token' o above
    rw [reduce, if_neg (Nat.not_le.2 above)]
  have finished : ∀ next ≤ tightness token,
      reduce next r (.left l token :: ps) = reduce next (.binary l token r) ps := by
    intro next le
    rw [reduce, if_pos le]
  calc read? ((ts ++ .operator token :: us) ++ rest) (.awaiting ps)
      = read? (ts ++ (.operator token :: us ++ rest)) (.awaiting ps) := by rw [List.append_assoc]
    _ = read? (.operator token :: us ++ rest) (.holding l ps) := left _ ps waits (Nat.le_refl _)
    _ = read? (us ++ rest) (operate token (reduce (tightness token) l ps)) := rfl
    _ = read? (us ++ rest) (.awaiting (.left l token :: ps)) := by
      rw [waits token l (Nat.le_refl _)]
      rfl
    _ = read? rest (.holding r (.left l token :: ps)) :=
      right rest _ pending (ends.mono (Nat.le_succ _))
    _ = read? rest (.holding (.binary l token r) ps) := read?_congr ends finished

/-- The value of an assignment goes on as far as it can. -/
theorem ReadsAt.assign {x : List Char} {target : String} (isName : ofWord x = .name target)
    (reads : ReadsAt 0 ts o) : ReadsAt 0 (.word x :: .becomes :: ts) (.assign target o) := by
  intro rest ps waits ends
  have pending : Waits 0 (.target target :: ps) := by
    intro token o _
    rw [reduce, if_neg (Nat.ne_of_gt (tightness_pos token))]
  have finished : ∀ next ≤ 0, reduce next o (.target target :: ps) =
      reduce next (.assign target o) ps := by
    intro next le
    rw [reduce, if_pos (Nat.le_zero.1 le)]
  calc read? (.word x :: .becomes :: ts ++ rest) (.awaiting ps)
      = read? (.becomes :: ts ++ rest) (.holding (ofWord x) ps) := rfl
    _ = read? (ts ++ rest) (.awaiting (.target target :: ps)) := by
      rw [isName]
      rfl
    _ = read? rest (.holding o (.target target :: ps)) := reads rest _ pending ends
    _ = read? rest (.holding (.assign target o) ps) := read?_congr ends finished

def commaRows : List (List Lexeme) → List Lexeme
  | [] => []
  | ts :: tss => ts ++ tss.flatMap (.comma :: ·)

variable {tss : List (List Lexeme)} {os done : List Outline} {f : String}

theorem reads_more_args (reads : List.Forall₂ (ReadsAt 0) tss os) :
    read? (tss.flatMap (.comma :: ·) ++ .closing :: rest) (.holding o (.args f done :: ps)) =
      read? rest (.holding (applied f (done ++ o :: os)) ps) := by
  induction reads generalizing o done with
  | nil => rfl
  | @cons ts arg tss os first _ ih =>
    have waits : Waits 0 (.args f (done ++ [o]) :: ps) := fun _ _ _ => rfl
    have ends : EndsBefore 0 (tss.flatMap (.comma :: ·) ++ .closing :: rest) := by
      cases tss <;> trivial
    have arg : read? (ts ++ (tss.flatMap (.comma :: ·) ++ .closing :: rest))
        (.awaiting (.args f (done ++ [o]) :: ps)) = _ := first _ _ waits ends
    rw [List.flatMap_cons, List.append_assoc, List.cons_append]
    show read? (ts ++ (tss.flatMap (.comma :: ·) ++ .closing :: rest))
      (.awaiting (.args f (done ++ [o]) :: ps)) = _
    rw [arg, ih, List.append_assoc]
    rfl

/-- A call of what is written as a word. -/
theorem ReadsAt.applied {cs : List Char} (isName : ofWord cs = .name f)
    (reads : List.Forall₂ (ReadsAt 0) tss os) :
    ReadsAt level (.word cs :: .opening :: (commaRows tss ++ [.closing])) (applied f os) := by
  intro rest ps waits ends
  have begun : read? (.word cs :: .opening :: (commaRows tss ++ [.closing]) ++ rest) (.awaiting ps) =
      read? (commaRows tss ++ .closing :: rest) (.awaiting (.args f [] :: ps)) := by
    rw [List.cons_append, List.cons_append, List.append_assoc]
    show read? (.opening :: (commaRows tss ++ .closing :: rest)) (.holding (ofWord cs) ps) = _
    rw [isName]
    rfl
  rw [begun]
  cases reads with
  | nil => rfl
  | @cons ts o tss os first more =>
    have waits : Waits 0 (.args f [] :: ps) := fun _ _ _ => rfl
    have ends : EndsBefore 0 (tss.flatMap (.comma :: ·) ++ .closing :: rest) := by
      cases tss <;> trivial
    rw [commaRows, List.append_assoc, first _ _ waits ends, reads_more_args more]
    rfl

/-- What is read in a place of level zero is the whole. -/
theorem ReadsAt.whole (reads : ReadsAt 0 ts o) : read? ts (.awaiting []) = some o := by
  have whole := reads [] [] (fun _ _ _ => rfl) trivial
  rwa [List.append_nil] at whole

end Outline

end ScriptLang
