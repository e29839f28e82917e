import ScriptLang.Proofs.ActivationRuns
import ScriptLang.Proofs.CallerFrames
import ScriptLang.Proofs.FoldedFaults
import ScriptLang.Proofs.LoweringPreserves

/-! A limit does nothing but cut runs off. While it is kept there are never more frames than it allows,
and a run that it does not cut off is the same under any higher limit and without one. Whether a
call is cut off depends on the number of frames alone, so two runs under different limits go side by
side until the lower one is reached. -/

namespace ScriptLang

/-- The run stops because it has reached the limit. -/
def CutOff (n : Nat) (stop : Stop) (_ : State) : Prop := stop = .fault (.callDepth n)

/-- From every state `y` does what `x` does, unless `x` is cut off. -/
def AgreesUnlessCut {α : Type} (n : Nat) (x y : Run α) : Prop := ∀ s, AgreesUnless (CutOff n) x y s

def Allows (n : Nat) (limit : Option Nat) : Prop := ∀ m, limit = some m → n ≤ m

namespace AgreesUnlessCut

variable {α β : Type} {n : Nat}

theorem refl (x : Run α) : AgreesUnlessCut n x x := fun _ => .refl x

theorem bind {x y : Run α} {f g : α → Run β} (first : AgreesUnlessCut n x y)
    (second : ∀ a, AgreesUnlessCut n (f a) (g a)) : AgreesUnlessCut n (x >>= f) (y >>= g) :=
  fun s => (first s).bind fun a t _ => second a t

theorem inFrame {x y : Run α} (frame : Store) (inner : AgreesUnlessCut n x y) :
    AgreesUnlessCut n (Run.inFrame frame x) (Run.inFrame frame y) := by
  intro s
  rcases inner { s with frames := frame :: s.frames } with same | ⟨stop, t, stops, isCut⟩
  · exact .inl (by rw [Run.inFrame_apply, Run.inFrame_apply, same])
  · refine .inr ⟨stop, { t with frames := t.frames.tail }, ?_, isCut⟩
    rw [Run.inFrame_apply, stops, Answer.leave]

end AgreesUnlessCut

section

variable {n : Nat} {invoke invoke' : Invoke}

theorem Fn.apply_agrees (calls : ∀ f args, AgreesUnlessCut n (invoke f args) (invoke' f args))
    (f : Fn) (args : List Value) : AgreesUnlessCut n (f.apply invoke args) (f.apply invoke' args) := by
  unfold Fn.apply
  cases f.builtin with
  | some b => exact .refl _
  | none => exact calls f args

namespace Expr

mutual

theorem eval_agreesUnlessCut (calls : ∀ f args, AgreesUnlessCut n (invoke f args) (invoke' f args))
    (e : Expr) : AgreesUnlessCut n (e.eval invoke) (e.eval invoke') := by
  cases e with
  | error | literal | range => exact .refl _
  | var v => simpa only [eval] using .refl _
  | assign v e => exact (eval_agreesUnlessCut calls e).bind fun value => .refl _
  | unary op e =>
    simp only [eval]
    cases (unary op e).constant? with
    | some value => exact .refl _
    | none => exact (eval_agreesUnlessCut calls e).bind fun value => .refl _
  | binary l op r =>
    simp only [eval]
    cases (binary l op r).constant? with
    | some value => exact .refl _
    | none =>
      refine (eval_agreesUnlessCut calls l).bind fun left => ?_
      cases op.action.shortCircuit? left with
      | some b => exact .refl _
      | none => exact (eval_agreesUnlessCut calls r).bind fun right => .refl _
  | call f es =>
    refine (evalArgs_agreesUnlessCut calls es).bind fun values => ?_
    exact (Fn.apply_agrees calls f values).bind fun result => .refl _
  | convert t e =>
    simp only [eval]
    cases (convert t e).constant? with
    | some value => exact .refl _
    | none => exact (eval_agreesUnlessCut calls e).bind fun value => .refl _

theorem evalArgs_agreesUnlessCut
    (calls : ∀ f args, AgreesUnlessCut n (invoke f args) (invoke' f args)) (es : List Expr) :
    AgreesUnlessCut n (evalArgs invoke es) (evalArgs invoke' es) := by
  cases es with
  | nil => exact .refl _
  | cons e es =>
    refine (eval_agreesUnlessCut calls e).bind fun value => ?_
    exact (evalArgs_agreesUnlessCut calls es).bind fun values => .refl _

end

theorem evalAlone_agreesUnlessCut
    (calls : ∀ f args, AgreesUnlessCut n (invoke f args) (invoke' f args)) (e : Expr) :
    AgreesUnlessCut n (e.evalAlone invoke) (e.evalAlone invoke') := by
  cases e with
  | call f es =>
    exact (evalArgs_agreesUnlessCut calls es).bind fun values => Fn.apply_agrees calls f values
  | _ => exact (eval_agreesUnlessCut calls _).bind fun value => .refl _

end Expr

theorem Run.stmt_agreesUnlessCut
    (calls : ∀ f args, AgreesUnlessCut n (invoke f args) (invoke' f args)) (body : Body)
    (isEntry : Bool) (place : Nat) (stmt : Stmt) :
    AgreesUnlessCut n (Run.stmt invoke body isEntry place stmt)
      (Run.stmt invoke' body isEntry place stmt) := by
  cases stmt with
  | declare v e => exact (e.eval_agreesUnlessCut calls).bind fun value => .refl _
  | expr e => exact (e.evalAlone_agreesUnlessCut calls).bind fun value => .refl _
  | gotoIf l c value => exact (c.eval_agreesUnlessCut calls).bind fun result => .refl _
  | ret value =>
    cases value with
    | none => exact .refl _
    | some e => exact (e.eval_agreesUnlessCut calls).bind fun result => .refl _
  | _ => exact .refl _

end

namespace Program

variable {p : Program} {n : Nat} {limit : Option Nat}

/-- The lower limit cuts a call off, or neither does. -/
theorem callee_agreesUnlessCut {fuel : Nat} (allows : Allows n limit)
    (runs : ∀ body, AgreesUnlessCut n (p.runFrom (some n) fuel body 0) (p.runFrom limit fuel body 0))
    (f : Fn) (args : List Value) :
    AgreesUnlessCut n (p.callee (some n) fuel f args) (p.callee limit fuel f args) := by
  intro s
  unfold callee invoke AgreesUnless
  rw [Run.bind_of_ok _ (Run.get_apply s), Run.bind_of_ok _ (Run.get_apply s)]
  by_cases full : n ≤ s.frames.length
  · exact .inr ⟨_, s, by simp [State.reached?, full], rfl⟩
  · have free : s.reached? limit = none := by
      unfold State.reached?
      cases limit with
      | none => rfl
      | some m =>
        have higher : n ≤ m := allows m rfl
        exact if_neg (by omega)
    have free' : s.reached? (some n) = none := if_neg full
    rw [free, free']
    dsimp only
    cases p.body? f with
    | none => exact .inl rfl
    | some body => exact AgreesUnlessCut.inFrame _ (runs body) s

theorem runFrom_agreesUnlessCut (allows : Allows n limit) (fuel : Nat) (body : Body) (place : Nat) :
    AgreesUnlessCut n (p.runFrom (some n) fuel body place) (p.runFrom limit fuel body place) := by
  induction fuel generalizing body place with
  | zero => exact .refl _
  | succ fuel ih =>
    intro s
    unfold AgreesUnless
    cases get : body[place]? with
    | none => exact .inl (by rw [p.runFrom_end _ _ get, p.runFrom_end _ _ get])
    | some stmt =>
      rw [p.runFrom_succ _ _ get, p.runFrom_succ _ _ get]
      have calls := p.callee_agreesUnlessCut allows fun callee => ih callee 0
      rcases Run.stmt_agreesUnlessCut calls body s.inEntry place stmt s with
        same | ⟨stop, t, stops, isCut⟩
      · rw [same]
        cases Run.stmt (p.callee (some n) fuel) body s.inEntry place stmt s with
        | error stop t => exact .inl rfl
        | ok next t =>
          cases next with
          | goto target => exact ih body target t
          | ret value => exact .inl rfl
      · exact .inr ⟨stop, t, by rw [stops], isCut⟩

theorem execute_agreesUnlessCut (allows : Allows n limit) (fuel : Nat) :
    AgreesUnlessCut n (p.execute (some n) fuel) (p.execute limit fuel) := by
  unfold execute executeWith
  cases p.diagnostics.hasErrors with
  | true => exact .refl _
  | false =>
    cases p.entry with
    | none => exact .refl _
    | some entry =>
      dsimp only
      cases p.body? entry with
      | none => exact .refl _
      | some body =>
        refine AgreesUnlessCut.bind ?_ fun value => .refl _
        exact .inFrame _ (p.runFrom_agreesUnlessCut allows fuel body 0)

/-- An evaluation that the limit does not cut off is the same under a higher limit. -/
theorem evaluate_cut_or_eq (allows : Allows n limit) (fuel : Nat) (globals : Store) (host : Host) :
    (p.evaluate (some n) fuel globals host).result = .error (.fault (.callDepth n)) ∨
      p.evaluate limit fuel globals host = p.evaluate (some n) fuel globals host := by
  unfold evaluate Run.outcome
  rcases p.execute_agreesUnlessCut allows fuel { globals, frames := [], host, last := none } with
    same | ⟨stop, t, stops, isCut⟩
  · exact .inr (by rw [same])
  · exact .inl (by rw [stops, isCut])

/-- A call is made only while there are fewer frames than the limit allows. -/
theorem LeadsInto.frames_within {first second : Point} (leads : p.LeadsInto (some n) first second)
    (within : first.state.frames.length ≤ max 1 n) : second.state.frames.length ≤ max 1 n := by
  rcases leads.frames_or_enters with same | ⟨⟨f, values, isCall⟩, more⟩
  · exact same ▸ within
  · obtain ⟨fuel, task, s⟩ := first
    subst isCall
    cases leads with
    | body userMade allowed found =>
      have free : ¬n ≤ s.frames.length := fun full => by simp [State.reached?, full] at allowed
      simp only [List.length_cons]
      omega

theorem Reaches.frames_within {fuel : Nat} {globals : Store} {host : Host} {point : Point}
    (reached : p.Reaches (some n) fuel globals host point) :
    point.state.frames.length ≤ max 1 n := by
  obtain ⟨start, ⟨_, entry, body, _, _, rfl⟩, path⟩ := reached
  induction path with
  | refl => exact Nat.le_max_left 1 n
  | tail _ step ih => exact step.frames_within ih

/-- What is done at a point leaves as many frames as there were. -/
theorem perform_frames (limit : Option Nat) (point : Point) (active : 0 < point.state.frames.length) :
    (Answer.state (p.perform limit point.fuel point.task point.state)).frames.length =
      point.state.frames.length := by
  obtain ⟨top, below, frames⟩ := List.exists_cons_of_length_pos active
  obtain ⟨_, after, _⟩ := p.perform_changesOnly limit point.fuel point.task point.state
    ⟨top, frames, fun _ _ => rfl⟩
  rw [after, frames, List.length_cons, List.length_cons]

/-- A limit of call depth only cuts runs off. At every state of a run under the limit `n` there are
at most `n` frames, or the one of the entry function. A run that is not cut off has the same result
or fault and leaves the same globals and the same host under every limit from `n` on and without
one. And if the run without a limit ends, then the one under the limit does. -/
theorem callDepth_only_cuts_off (p : Program) (globals : Store) (host : Host) (n : Nat) :
    (∀ fuel point, p.Reaches (some n) fuel globals host point →
      ∀ s, p.StateAt (some n) point s → s.frames.length ≤ max 1 n) ∧
    (∀ fuel, (p.evaluate (some n) fuel globals host).result ≠ .error (.fault (.callDepth n)) →
      p.evaluate none fuel globals host = p.evaluate (some n) fuel globals host ∧
      ∀ m, n ≤ m → p.evaluate (some m) fuel globals host = p.evaluate (some n) fuel globals host) ∧
    (∀ fuel, (p.evaluate none fuel globals host).Ended →
      (p.evaluate (some n) fuel globals host).Ended) := by
  refine ⟨fun fuel point reached s isState => ?_, fun fuel notCut => ⟨?_, fun m higher => ?_⟩,
    fun fuel ended => ?_⟩
  · rcases isState with rfl | rfl
    · exact reached.frames_within
    · rw [perform_frames (some n) point reached.frames_pos]
      exact reached.frames_within
  · have allows : Allows n none := fun m isLimit => by contradiction
    exact (evaluate_cut_or_eq allows fuel globals host).resolve_left notCut
  · have allows : Allows n (some m) := fun m' isLimit => Option.some.inj isLimit ▸ higher
    exact (evaluate_cut_or_eq allows fuel globals host).resolve_left notCut
  · have allows : Allows n none := fun m isLimit => by contradiction
    rcases evaluate_cut_or_eq (p := p) allows fuel globals host with cut | same
    · rw [Outcome.Ended, cut]
      exact fun starved => by cases starved
    · exact same ▸ ended

end Program

namespace DeepSum

def argument : Var := ⟨0, "n", .int, .parameter 0, .readOnly none⟩
def sum : Fn := ⟨1, "sum", [argument], .int, some 0, none⟩
def main : Fn := ⟨2, "main", [], .void, none, none⟩
def base : Label := ⟨3, "base"⟩

def sumBody : Body := [
  .gotoIf base (.binary (.var argument) .intEquals (.literal (.int 0))) true,
  .ret (some (.binary (.var argument) .intAddition
    (.call sum [.binary (.var argument) .intAddition (.literal (.int (-1)))]))),
  .label base,
  .ret (some (.literal (.int 0)))]

def mainBody : Body := [.expr (.call sum [.literal (.int 2)])]

def program : Program := ⟨.empty, some main, [(sum, sumBody), (main, mainBody)], []⟩

def inSum : State :=
  ⟨.empty, [Store.ofArguments [argument] [.int 2], .empty], .empty, none⟩

theorem reaches_sum (n : Nat) (allowed : 1 < n) :
    program.Reaches (some n) 16 .empty .empty ⟨15, .run sumBody 0, inSum⟩ := by
  refine ⟨⟨16, .run mainBody 0, ⟨.empty, [.empty], .empty, none⟩⟩, ⟨rfl, main, mainBody, rfl, rfl, rfl⟩, ?_⟩
  have free : State.reached? ⟨.empty, [.empty], .empty, none⟩ (some n) = none :=
    if_neg (by simpa using allowed)
  exact ((Relation.ReflTransGen.single (.stands rfl)).tail (.aloneCall rfl)).tail
    (.body rfl free rfl)

end DeepSum

theorem deepSum_cut_off :
    (DeepSum.program.evaluate (some 4) 16 .empty .empty).result = .ok (some (.int 3)) ∧
    (DeepSum.program.evaluate (some 3) 16 .empty .empty).result =
      .error (.fault (.callDepth 3)) ∧
    DeepSum.inSum.frames.length ≤ 3 ∧
    (∀ m, 4 ≤ m → (DeepSum.program.evaluate (some m) 16 .empty .empty).result =
      .ok (some (.int 3))) ∧
    (DeepSum.program.evaluate none 16 .empty .empty).Ended ∧
    (DeepSum.program.evaluate (some 3) 16 .empty .empty).Ended := by
  have value : (DeepSum.program.evaluate (some 4) 16 .empty .empty).result =
      .ok (some (.int 3)) := rfl
  have cut : (DeepSum.program.evaluate (some 3) 16 .empty .empty).result =
      .error (.fault (.callDepth 3)) := rfl
  obtain ⟨_, same, _⟩ := Program.callDepth_only_cuts_off DeepSum.program .empty .empty 4
  obtain ⟨frames, _, ends⟩ := Program.callDepth_only_cuts_off DeepSum.program .empty .empty 3
  obtain ⟨unlimited, higher⟩ := same 16 (by rw [value]; exact fun isCut => by cases isCut)
  have ended : (DeepSum.program.evaluate none 16 .empty .empty).Ended := by
    rw [unlimited, Outcome.Ended, value]
    exact fun starved => by cases starved
  refine ⟨value, cut, frames 16 _ (DeepSum.reaches_sum 3 (by decide)) _ (.inl rfl), fun m above => ?_,
    ended, ends 16 ended⟩
  rw [higher m above, value]

end ScriptLang
