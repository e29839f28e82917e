import ScriptLang.Proofs.LoweringLabels

/-! Lowering gives flat code in which no jump has a condition of known value and which does not run past
its end if it returns nothing. Such code is its own lowered form, so lowering twice is lowering once. -/

namespace ScriptLang

/-- A flat statement that is no jump with a condition of known value. -/
def Stmt.isSettled : Stmt → Bool
  | .gotoIf _ c _ => c.constantBool?.isNone
  | s => s.isFlat

theorem Stmt.isFlat_of_isSettled {s : Stmt} (settled : s.isSettled = true) : s.isFlat = true := by
  cases s with
  | gotoIf => rfl
  | _ => exact settled

namespace Body

def isSettled (code : Body) : Bool := code.all Stmt.isSettled

@[simp] theorem isSettled_nil : isSettled [] = true := rfl

@[simp] theorem isSettled_cons (s : Stmt) (code : Body) :
    isSettled (s :: code) = (s.isSettled && code.isSettled) := List.all_cons

@[simp] theorem isSettled_append (a b : Body) :
    Body.isSettled (a ++ b) = (a.isSettled && b.isSettled) := List.all_append

theorem isFlat_of_isSettled {code : Body} (settled : code.isSettled = true) : code.isFlat = true :=
  List.all_eq_true.2 fun s member => Stmt.isFlat_of_isSettled (List.all_eq_true.1 settled s member)

end Body

@[simp] theorem jumpIf_isSettled (l : Label) (c : Expr) (value : Bool) :
    Body.isSettled (jumpIf l c value) = true := by
  unfold jumpIf
  split
  · split <;> rfl
  · next unknown => simp [Stmt.isSettled, unknown]

@[simp] theorem loopCode_isSettled (l : Label) (labels : LoopLabels) (c : Expr) (code : List Stmt) :
    Body.isSettled (loopCode l labels c code) = Body.isSettled code := by
  simp [loopCode, Stmt.isSettled, Stmt.isFlat]

@[simp] theorem stepCode_isSettled (v upper : Var) (labels : LoopLabels) :
    Body.isSettled (stepCode v upper labels) = true := by
  simp [stepCode, Stmt.isSettled, Stmt.isFlat]

namespace Stmt

mutual

theorem lower_isSettled (s : Stmt) (n : Nat) : Body.isSettled (s.lower n).1 = true := by
  cases s with
  | block body => exact lowerAll_isSettled body n
  | ifThen c t => simp [lower_ifThen, lower_isSettled t, isSettled, isFlat]
  | ifElse c t e =>
    simp [lower_ifElse, lower_isSettled t, lower_isSettled e, isSettled, isFlat]
  | whileDo c body labels => simp [lower_whileDo, lower_isSettled body]
  | doWhile body c labels => simp [lower_doWhile, lower_isSettled body, isSettled, isFlat]
  | forIn v range body labels =>
    simp [lower_forIn, lower_isSettled body, isSettled, isFlat]
  | gotoIf l c value => exact jumpIf_isSettled l c value
  | declare _ _ | label _ | goto _ | ret _ | expr _ => rfl

theorem lowerAll_isSettled (ss : List Stmt) (n : Nat) :
    Body.isSettled (lowerAll ss n).1 = true := by
  cases ss with
  | nil => rfl
  | cons s ss => simp [lowerAll_cons, lower_isSettled s, lowerAll_isSettled ss]

end

theorem lower_of_isSettled {s : Stmt} (settled : s.isSettled = true) (n : Nat) :
    s.lower n = ([s], n) := by
  cases s with
  | gotoIf l c value =>
    have unknown : c.constantBool? = none := Option.isNone_iff_eq_none.1 settled
    have kept : jumpIf l c value = [gotoIf l c value] := by rw [jumpIf, unknown]
    exact congrArg (·, n) kept
  | declare _ _ | label _ | goto _ | ret _ | expr _ => rfl
  | block _ | ifThen _ _ | ifElse _ _ _ | whileDo _ _ _ | doWhile _ _ _ | forIn _ _ _ _ =>
    contradiction

theorem lowerAll_of_isSettled {code : Body} (settled : code.isSettled = true) (n : Nat) :
    lowerAll code n = (code, n) := by
  induction code with
  | nil => rfl
  | cons s code ih =>
    obtain ⟨first, rest⟩ := Bool.and_eq_true_iff.1 ((Body.isSettled_cons s code).symm.trans settled)
    rw [lowerAll_cons, lower_of_isSettled first, ih rest]
    rfl

end Stmt

namespace Body

/-- The last statement never goes on to the next one, if the code returns nothing. -/
def Ends (returns : Ty) (code : Body) : Prop :=
  returns = .void → ∃ front last, code = front ++ [last] ∧ last.isTerminator = true

theorem close_ends (returns : Ty) (code : Body) : (close returns code).Ends returns := by
  intro noValue
  unfold close
  split
  · exact ⟨code, .ret none, rfl, rfl⟩
  · next closed =>
    have last : (code.getLast?.map Stmt.isTerminator).getD false = true := by
      simpa [noValue] using closed
    cases isLast : code.getLast? with
    | none => simp [isLast] at last
    | some s =>
      obtain ⟨front, split⟩ := List.getLast?_eq_some_iff.1 isLast
      exact ⟨front, s, split, by simpa [isLast] using last⟩

/-- No second `return` is put behind the first one. -/
theorem close_of_ends {returns : Ty} {code : Body} (ends : code.Ends returns) :
    close returns code = code := by
  refine if_neg ?_
  rintro ⟨noValue, runsOn⟩
  obtain ⟨front, last, rfl, terminates⟩ := ends noValue
  simp [terminates] at runsOn

theorem close_isSettled {returns : Ty} {code : Body} (settled : code.isSettled = true) :
    (close returns code).isSettled = true := by
  unfold close
  split
  · simp [settled, Stmt.isSettled, Stmt.isFlat]
  · exact settled

theorem lower_isSettled (returns : Ty) (body : Body) (n : Nat) :
    (body.lower returns n).1.isSettled = true := close_isSettled (Stmt.lowerAll_isSettled body n)

theorem lower_of_isSettled {returns : Ty} {code : Body} (settled : code.isSettled = true)
    (ends : code.Ends returns) (n : Nat) : code.lower returns n = (code, n) := by
  show (close returns (Stmt.lowerAll code n).1, (Stmt.lowerAll code n).2) = (code, n)
  rw [Stmt.lowerAll_of_isSettled settled, close_of_ends ends]

/-- Whatever statements a body is made of, its code is flat, has no jump with a condition of known
value, and ends with a jump or a `return` if it returns nothing. It is lowered to itself, without
any new label. -/
theorem lower_settles (returns : Ty) (body : Body) (n : Nat) :
    (body.lower returns n).1.isFlat = true ∧
      (∀ l c value, .gotoIf l c value ∈ (body.lower returns n).1 → c.constantBool? = none) ∧
      (returns = .void → ∃ front last,
        (body.lower returns n).1 = front ++ [last] ∧ last.isTerminator = true) ∧
      ∀ m, (body.lower returns n).1.lower returns m = ((body.lower returns n).1, m) := by
  have settled := lower_isSettled returns body n
  have ends : (body.lower returns n).1.Ends returns := close_ends returns (Stmt.lowerAll body n).1
  refine ⟨isFlat_of_isSettled settled, fun l c value member => ?_, ends,
    lower_of_isSettled settled ends⟩
  exact Option.isNone_iff_eq_none.1 (List.all_eq_true.1 settled _ member)

end Body

end ScriptLang
