import ScriptLang.Machine.Run
import ScriptLang.Proofs.Alike

/-! An expression of the first run has the same value in the second one, if the functions that
it calls have. -/

namespace ScriptLang

/-- In alike activations `y` does what `x` does, and they stay alike. -/
abbrev FollowsAlike {α β : Type} (c : SideBySide) (held : Held) (same : α → β → Prop) (n : Nat)
    (x : Run α) (y : Nat → Run β) : Prop :=
  Follows (Alike c held) (fun _ => Alike c held) (AlikeOutside c) same n x y

def CallsFollow (callable : Fn → Prop) (next : Nat) (comparesLast : Bool) (n : Nat)
    (first : Invoke) (second : Nat → Invoke) : Prop :=
  ∀ f, callable f → ∀ c : SideBySide, c.next = next → c.comparesLast = comparesLast →
    ∀ held args, FollowsAlike c held Eq n (first f args)
      (fun m => second m f args)

section

variable {c : SideBySide} {held : Held} {n : Nat} {callable : Fn → Prop} {first : Invoke}
  {second : Nat → Invoke}

theorem Run.get_follows :
    FollowsAlike c held (Alike c held) n
      (get : Run State) (fun _ => (get : Run State)) :=
  fun _ t alike => ⟨t, t, alike, alike, .of_const rfl⟩

theorem Run.modify_follows {f g : State → State}
    (related : ∀ s t, Alike c held s t → Alike c held (f s) (g t)) :
    FollowsAlike c held Eq n (modify f : Run PUnit) (fun _ => (modify g : Run PUnit)) :=
  .modify related

theorem Run.read_follows {v : Var} (below : v.id < c.next) :
    FollowsAlike c held Eq n (Run.read v)
      (fun _ => Run.read v) := by
  intro s t alike
  have same := alike.read? below
  rw [Run.read_apply]
  cases given : s.read? v with
  | some value =>
    exact ⟨value, t, rfl, alike, .of_const (by rw [Run.read_apply, ← same, given])⟩
  | none =>
    exact ⟨t, alike.outside, .of_const (by rw [Run.read_apply, ← same, given])⟩

theorem Run.write_follows {v : Var} (below : v.id < c.next) (value : Value) :
    FollowsAlike c held Eq n (Run.write v value)
      (fun _ => Run.write v value) :=
  Run.modify_follows fun _ _ alike => alike.write below value

theorem Run.ofExcept_follows (result : Except OperatorFault Value) :
    FollowsAlike c held Eq n (Run.ofExcept result)
      (fun _ => Run.ofExcept result) := by
  cases result with
  | ok value => exact .pure rfl fun _ _ alike => alike
  | error e => exact .fault _ fun _ _ alike => alike.outside

theorem Builtin.run_follows (b : Builtin) (args : List Value) :
    FollowsAlike c held Eq n (b.run args)
      (fun _ => b.run args) := by
  unfold Builtin.run
  split
  · refine (Run.modify_follows fun s t alike => ?_).bind fun _ _ _ =>
      .pure rfl fun _ _ alike => alike
    rw [← alike.host]
    exact alike.withHost _
  · refine Run.get_follows.bind fun s t alike => ?_
    rw [← alike.host]
    split
    · exact (Run.modify_follows fun _ _ alike => alike.withHost _).bind fun _ _ _ =>
        .pure rfl fun _ _ alike => alike
    · exact .fault _ fun _ _ alike => alike.outside
  · refine Run.get_follows.bind fun s t alike => ?_
    rw [← alike.host]
    exact (Run.modify_follows fun _ _ alike => alike.withHost _).bind fun _ _ _ =>
      .pure rfl fun _ _ alike => alike
  · exact .defect _ fun _ _ alike => alike.outside

theorem Fn.apply_follows (calls : CallsFollow callable c.next c.comparesLast n first second)
    {f : Fn} (called : callable f) (args : List Value) :
    FollowsAlike c held Eq n (f.apply first args)
      (fun m => f.apply (second m) args) := by
  unfold Fn.apply
  cases f.builtin with
  | some b => exact b.run_follows args
  | none => exact calls f called c rfl rfl held args

namespace Expr

mutual

theorem eval_follows (calls : CallsFollow callable c.next c.comparesLast n first second)
    (e : Expr) (below : ∀ v ∈ e.vars, v.id < c.next) (called : ∀ f ∈ e.calls, callable f) :
    FollowsAlike c held Eq n (e.eval first)
      (fun m => e.eval (second m)) := by
  cases e with
  | error => exact .defect _ fun _ _ alike => alike.outside
  | literal v => exact .pure rfl fun _ _ alike => alike
  | var v =>
    simp only [eval]
    cases v.constant with
    | some value => exact .pure rfl fun _ _ alike => alike
    | none => exact Run.read_follows (below v (by simp [vars]))
  | assign v e =>
    simp only [eval]
    simp only [vars, List.forall_mem_cons] at below
    refine (eval_follows calls e below.2 called).bind ?_
    rintro value _ rfl
    exact (Run.write_follows below.1 value).bind fun _ _ _ => .pure rfl fun _ _ alike => alike
  | unary op e =>
    simp only [eval]
    cases (unary op e).constant? with
    | some value => exact .pure rfl fun _ _ alike => alike
    | none =>
      refine (eval_follows calls e below called).bind ?_
      rintro value _ rfl
      exact Run.ofExcept_follows _
  | binary l op r =>
    simp only [eval]
    simp only [vars, List.forall_mem_append] at below
    simp only [Expr.calls, List.forall_mem_append] at called
    cases (binary l op r).constant? with
    | some value => exact .pure rfl fun _ _ alike => alike
    | none =>
      refine (eval_follows calls l below.1 called.1).bind ?_
      rintro left _ rfl
      cases op.action.shortCircuit? left with
      | some b => exact .pure rfl fun _ _ alike => alike
      | none =>
        refine (eval_follows calls r below.2 called.2).bind ?_
        rintro right _ rfl
        exact Run.ofExcept_follows _
  | range l r => exact .defect _ fun _ _ alike => alike.outside
  | call f args =>
    simp only [eval]
    simp only [Expr.calls, List.forall_mem_cons] at called
    refine (evalArgs_follows calls args below called.2).bind ?_
    rintro values _ rfl
    refine (Fn.apply_follows calls called.1 values).bind ?_
    rintro result _ rfl
    cases result with
    | some value => exact .pure rfl fun _ _ alike => alike
    | none => exact .defect _ fun _ _ alike => alike.outside
  | convert target e =>
    simp only [eval]
    cases (convert target e).constant? with
    | some value => exact .pure rfl fun _ _ alike => alike
    | none =>
      refine (eval_follows calls e below called).bind ?_
      rintro value _ rfl
      exact Run.ofExcept_follows _

theorem evalArgs_follows (calls : CallsFollow callable c.next c.comparesLast n first second)
    (es : List Expr) (below : ∀ v ∈ varsOf es, v.id < c.next) (called : ∀ f ∈ callsOf es, callable f) :
    FollowsAlike c held Eq n (evalArgs first es)
      (fun m => evalArgs (second m) es) := by
  cases es with
  | nil => exact .pure rfl fun _ _ alike => alike
  | cons e es =>
    simp only [evalArgs]
    simp only [varsOf, List.forall_mem_append] at below
    simp only [callsOf, List.forall_mem_append] at called
    refine (eval_follows calls e below.1 called.1).bind ?_
    rintro value _ rfl
    refine (evalArgs_follows calls es below.2 called.2).bind ?_
    rintro values _ rfl
    exact .pure rfl fun _ _ alike => alike

end

theorem evalAlone_follows (calls : CallsFollow callable c.next c.comparesLast n first second)
    (e : Expr) (below : ∀ v ∈ e.vars, v.id < c.next) (called : ∀ f ∈ e.calls, callable f) :
    FollowsAlike c held Eq n (e.evalAlone first)
      (fun m => e.evalAlone (second m)) := by
  unfold evalAlone
  split
  next f args =>
    simp only [Expr.calls, List.forall_mem_cons] at called
    refine (evalArgs_follows calls args below called.2).bind ?_
    rintro values _ rfl
    exact Fn.apply_follows calls called.1 values
  next _ =>
    refine (eval_follows calls e below called).bind ?_
    rintro value _ rfl
    exact .pure rfl fun _ _ alike => alike

end Expr

end

end ScriptLang
