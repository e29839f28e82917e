import ScriptLang.Machine.Run

/-! A computation with a fuel argument settles on an answer if enough fuel gives that answer
and less fuel gives either that answer or none. Settling goes through `bind`. -/

namespace ScriptLang

/-- What a run gives: a value or the reason of a stop, and the state it leaves. -/
abbrev Answer (α : Type) := EStateM.Result Stop State α

def Answer.state {α : Type} : Answer α → State
  | .ok _ s => s
  | .error _ s => s

def Answer.value? {α : Type} : Answer α → Option α
  | .ok a _ => some a
  | .error _ _ => none

theorem Answer.ok_of_value? {α : Type} {x : Answer α} {a : α} (given : Answer.value? x = some a) :
    x = .ok a x.state := by
  cases x with
  | ok b t => exact congrArg (fun b => EStateM.Result.ok b t) (Option.some.inj given)
  | error stop t => contradiction

namespace Run

variable {α β : Type} {s t : State}

theorem bind_of_ok {x : Run α} {a : α} (f : α → Run β) (given : x s = .ok a t) :
    (x >>= f) s = f a t := by
  simp only [bind, EStateM.bind, given]

theorem bind_of_error {x : Run α} {stop : Stop} (f : α → Run β) (given : x s = .error stop t) :
    (x >>= f) s = .error stop t := by
  simp only [bind, EStateM.bind, given]

/-- A computation with a value comes from two that have one. -/
theorem ok_of_bind {x : Run α} {f : α → Run β} {b : β} (given : (x >>= f) s = .ok b t) :
    ∃ a u, x s = .ok a u ∧ f a u = .ok b t := by
  cases first : x s with
  | ok a u => exact ⟨a, u, rfl, bind_of_ok f first ▸ given⟩
  | error stop u =>
    rw [bind_of_error f first] at given
    contradiction

/-- A computation that stops does so in its first part, or in the second one. -/
theorem error_of_bind {x : Run α} {f : α → Run β} {stop : Stop}
    (given : (x >>= f) s = .error stop t) :
    x s = .error stop t ∨ ∃ a u, x s = .ok a u ∧ f a u = .error stop t := by
  cases first : x s with
  | ok a u => exact .inr ⟨a, u, rfl, bind_of_ok f first ▸ given⟩
  | error _ u =>
    rw [bind_of_error f first] at given
    cases given
    exact .inl rfl

@[simp] theorem pure_apply (a : α) (s : State) : (pure a : Run α) s = .ok a s := rfl

@[simp] theorem fault_apply (f : Fault) (s : State) :
    (fault f : Run α) s = .error (.fault f) s := rfl

@[simp] theorem defect_apply (d : Defect) (s : State) :
    (defect d : Run α) s = .error (.fault (.defect d)) s := rfl

@[simp] theorem throw_apply (stop : Stop) (s : State) :
    (throw stop : Run α) s = .error stop s := rfl

@[simp] theorem write_apply (v : Var) (value : Value) (s : State) :
    write v value s = .ok ⟨⟩ (s.write v value) := rfl

@[simp] theorem modify_apply (f : State → State) (s : State) :
    (modify f : Run PUnit) s = .ok ⟨⟩ (f s) := rfl

@[simp] theorem get_apply (s : State) : (get : Run State) s = .ok s s := rfl

theorem read_apply (v : Var) (s : State) :
    read v s = match s.read? v with
      | some value => .ok value s
      | none => .error (.fault (.defect (.unassigned v.name))) s := by
  rw [read, bind_of_ok _ (get_apply s)]
  cases s.read? v <;> rfl

end Run

def Starved {α : Type} (answer : Answer α) : Prop := ∃ s, answer = .error .outOfFuel s

@[simp] theorem starved_outOfFuel {α : Type} (s : State) :
    Starved (.error .outOfFuel s : Answer α) := ⟨s, rfl⟩

@[simp] theorem not_starved_ok {α : Type} (a : α) (s : State) :
    ¬Starved (.ok a s : Answer α) := by
  rintro ⟨_, equal⟩
  cases equal

@[simp] theorem not_starved_fault {α : Type} (f : Fault) (s : State) :
    ¬Starved (.error (.fault f) s : Answer α) := by
  rintro ⟨_, equal⟩
  cases equal

theorem Starved.bind {α β : Type} {x : Run α} {s : State} (starved : Starved (x s))
    (f : α → Run β) : Starved ((x >>= f) s) := by
  obtain ⟨t, given⟩ := starved
  exact ⟨t, Run.bind_of_error f given⟩

/-- Enough fuel gives the answer, and less fuel gives the same answer or none. -/
structure Settles {α : Type} (y : Nat → Run α) (s : State) (answer : Answer α) : Prop where
  enough : ∃ n, ∀ m, n ≤ m → y m s = answer
  always : ∀ m, y m s = answer ∨ Starved (y m s)

namespace Settles

variable {α β : Type} {y : Nat → Run α} {s t : State}

theorem of_const {x : Run α} {answer : Answer α} (given : x s = answer) :
    Settles (fun _ => x) s answer :=
  ⟨⟨0, fun _ _ => given⟩, fun _ => .inl given⟩

theorem bind {a : α} {answer : Answer β} {g : Nat → α → Run β}
    (first : Settles y s (.ok a t)) (second : Settles (fun m => g m a) t answer) :
    Settles (fun m => y m >>= g m) s answer := by
  obtain ⟨n, enough⟩ := first.enough
  obtain ⟨k, more⟩ := second.enough
  constructor
  · refine ⟨max n k, fun m bound => ?_⟩
    rw [Run.bind_of_ok _ (enough m (by omega))]
    exact more m (by omega)
  · intro m
    rcases first.always m with given | starved
    · rw [Run.bind_of_ok _ given]
      exact second.always m
    · exact .inr (starved.bind _)

theorem bind_error {stop : Stop} (first : Settles y s (.error stop t)) (g : Nat → α → Run β) :
    Settles (fun m => y m >>= g m) s (.error stop t) := by
  obtain ⟨n, enough⟩ := first.enough
  constructor
  · exact ⟨n, fun m bound => Run.bind_of_error _ (enough m bound)⟩
  · intro m
    rcases first.always m with given | starved
    · exact .inl (Run.bind_of_error _ given)
    · exact .inr (starved.bind _)

/-- An answer that is not for lack of fuel is the one that the computation settles on. -/
theorem eq_of_not_starved {answer : Answer α} (settles : Settles y s answer) {m : Nat}
    (fed : ¬Starved (y m s)) : y m s = answer :=
  (settles.always m).resolve_right fed

end Settles

def Answer.leave {α : Type} : Answer α → Answer α
  | .ok a s => .ok a { s with frames := s.frames.tail }
  | .error stop s => .error stop { s with frames := s.frames.tail }

theorem Run.inFrame_apply {α : Type} (frame : Store) (x : Run α) (s : State) :
    inFrame frame x s = Answer.leave (x { s with frames := frame :: s.frames }) := by
  unfold inFrame Answer.leave
  cases x { s with frames := frame :: s.frames } <;> rfl

theorem Starved.leave {α : Type} {answer : Answer α} (starved : Starved answer) :
    Starved answer.leave := by
  obtain ⟨s, rfl⟩ := starved
  exact ⟨_, rfl⟩

theorem Settles.inFrame {α : Type} {y : Nat → Run α} {s : State} {frame : Store}
    {answer : Answer α} (settles : Settles y { s with frames := frame :: s.frames } answer) :
    Settles (fun m => Run.inFrame frame (y m)) s answer.leave := by
  obtain ⟨n, enough⟩ := settles.enough
  constructor
  · refine ⟨n, fun m bound => ?_⟩
    rw [Run.inFrame_apply, enough m bound]
  · intro m
    rw [Run.inFrame_apply]
    rcases settles.always m with equal | starved
    · exact .inl (by rw [equal])
    · exact .inr starved.leave

/-- The computation `y` does from related states what `x` does. Their values and the states
they leave are related again; where `x` stops with a fault, `y` stops with the same one;
where `x` lacks fuel, `y` lacks it with any fuel up to `n`. -/
def Follows {α β : Type} (before : State → State → Prop) (after : α → State → State → Prop)
    (faulty : State → State → Prop) (same : α → β → Prop) (n : Nat) (x : Run α)
    (y : Nat → Run β) : Prop :=
  ∀ s t, before s t →
    match x s with
    | .ok a s' => ∃ b t', same a b ∧ after a s' t' ∧ Settles y t (.ok b t')
    | .error (.fault f) s' => ∃ t', faulty s' t' ∧ Settles y t (.error (.fault f) t')
    | .error .outOfFuel _ => ∀ m ≤ n, Starved (y m t)

namespace Follows

variable {α β γ δ : Type} {before faulty : State → State → Prop}
  {after : α → State → State → Prop} {same : α → β → Prop} {n : Nat}

theorem bind {middle : α → State → State → Prop} {after : γ → State → State → Prop}
    {other : γ → δ → Prop} {x : Run α} {y : Nat → Run β} {f : α → Run γ}
    {g : Nat → β → Run δ} (first : Follows before middle faulty same n x y)
    (second : ∀ a b, same a b →
      Follows (middle a) after faulty other n (f a) (fun m => g m b)) :
    Follows before after faulty other n (x >>= f) (fun m => y m >>= g m) := by
  intro s t related
  have head := first s t related
  cases given : x s with
  | ok a s' =>
    simp only [given] at head
    obtain ⟨b, t', alike, related', settles⟩ := head
    have tail := second a b alike s' t' related'
    rw [Run.bind_of_ok f given]
    cases given' : f a s' with
    | ok c s'' =>
      simp only [given'] at tail ⊢
      obtain ⟨d, t'', alike', related'', settles'⟩ := tail
      exact ⟨d, t'', alike', related'', settles.bind settles'⟩
    | error stop s'' =>
      cases stop with
      | fault _ =>
        simp only [given'] at tail ⊢
        obtain ⟨t'', related'', settles'⟩ := tail
        exact ⟨t'', related'', settles.bind settles'⟩
      | outOfFuel =>
        simp only [given'] at tail ⊢
        intro m bound
        rcases settles.always m with equal | starved
        · rw [Run.bind_of_ok _ equal]
          exact tail m bound
        · exact starved.bind _
  | error stop s' =>
    rw [Run.bind_of_error f given]
    cases stop with
    | fault _ =>
      simp only [given] at head ⊢
      obtain ⟨t', related', settles⟩ := head
      exact ⟨t', related', settles.bind_error g⟩
    | outOfFuel =>
      simp only [given] at head ⊢
      exact fun m bound => (head m bound).bind _

theorem pure {a : α} {b : β} (alike : same a b) (within : ∀ s t, before s t → after a s t) :
    Follows before after faulty same n (Pure.pure a) (fun _ => Pure.pure b) :=
  fun s t related => ⟨b, t, alike, within s t related, .of_const rfl⟩

theorem fault (f : Fault) (within : ∀ s t, before s t → faulty s t) :
    Follows before after faulty same n (Run.fault f) (fun _ => Run.fault f) :=
  fun s t related => ⟨t, within s t related, .of_const rfl⟩

theorem defect (d : Defect) (within : ∀ s t, before s t → faulty s t) :
    Follows before after faulty same n (Run.defect d) (fun _ => Run.defect d) :=
  fault _ within

theorem modify {f g : State → State} {after : PUnit → State → State → Prop}
    (related : ∀ s t, before s t → after ⟨⟩ (f s) (g t)) :
    Follows before after faulty Eq n (modify f : Run PUnit) (fun _ => (modify g : Run PUnit)) :=
  fun s t given => ⟨⟨⟩, g t, rfl, related s t given, .of_const rfl⟩

/-- Computations that go side by side in a new frame do so as a whole. -/
theorem inFrame {inside faultyInside : State → State → Prop}
    {afterInside : α → State → State → Prop} {x : Run α} {y : Nat → Run β} {frame : Store}
    {s t : State}
    (inner : Follows inside afterInside faultyInside same n x y)
    (enters : inside { s with frames := frame :: s.frames } { t with frames := frame :: t.frames })
    (leaves : ∀ a s t, afterInside a s t →
      after a { s with frames := s.frames.tail } { t with frames := t.frames.tail })
    (leavesFaulty : ∀ s t, faultyInside s t →
      faulty { s with frames := s.frames.tail } { t with frames := t.frames.tail }) :
    Follows (fun s' t' => s' = s ∧ t' = t) after faulty same n (Run.inFrame frame x)
      (fun m => Run.inFrame frame (y m)) := by
  rintro s t ⟨rfl, rfl⟩
  have head := inner _ _ enters
  rw [Run.inFrame_apply]
  cases given : x { s with frames := frame :: s.frames } with
  | ok a s' =>
    simp only [given, Answer.leave] at head ⊢
    obtain ⟨b, t', alike, related, settles⟩ := head
    exact ⟨b, _, alike, leaves a s' t' related, settles.inFrame⟩
  | error stop s' =>
    cases stop with
    | fault _ =>
      simp only [given, Answer.leave] at head ⊢
      obtain ⟨t', related, settles⟩ := head
      exact ⟨_, leavesFaulty s' t' related, settles.inFrame⟩
    | outOfFuel =>
      simp only [given, Answer.leave] at head ⊢
      intro m bound
      rw [Run.inFrame_apply]
      exact (head m bound).leave

end Follows

end ScriptLang
