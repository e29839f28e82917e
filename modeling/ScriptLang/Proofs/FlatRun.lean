import ScriptLang.Proofs.Code
import ScriptLang.Proofs.Fuel

/-! A run of a body leads from one place to another in some number of steps. `Matches` says
that from a place on the flat run does what another computation does; it goes through
`bind`, so the flat code of a statement is matched part by part. -/

namespace ScriptLang

variable {α β : Type}

/-- What is left to run: from a place on, or nothing after a return. -/
def Program.resume (p : Program) (limit : Option Nat) (body : Body) :
    Next → Nat → Run (Option Value)
  | .goto place, fuel => p.runFrom limit fuel body place
  | .ret value, _ => pure value

/-- How the functions of a program are called in a run that has `fuel` left. -/
def Program.callee (p : Program) (limit : Option Nat) (fuel : Nat) : Invoke :=
  p.invoke limit fun body => p.runFrom limit fuel body 0

theorem Program.runFrom_succ (p : Program) (limit : Option Nat) (fuel : Nat) {body : Body}
    {place : Nat} {stmt : Stmt} (get : body[place]? = some stmt) (s : State) :
    p.runFrom limit (fuel + 1) body place s =
      match Run.stmt (p.callee limit fuel) body s.inEntry place stmt s with
      | .ok next t => p.resume limit body next fuel t
      | .error stop t => .error stop t := by
  simp only [Program.runFrom, get, Program.callee]
  split <;> simp_all [Program.resume]

theorem Program.runFrom_end (p : Program) (limit : Option Nat) (fuel : Nat) {body : Body}
    {place : Nat} (get : body[place]? = none) (s : State) :
    p.runFrom limit (fuel + 1) body place s = .ok none s := by
  simp only [Program.runFrom, get]

structure Leads (p : Program) (limit : Option Nat) (body : Body) (start : Next) (s : State)
    (steps : Nat) (target : Next) (t : State) : Prop where
  enough : ∃ n, ∀ m, n ≤ m →
    p.resume limit body start (m + steps) s = p.resume limit body target m t
  always : ∀ m, Starved (p.resume limit body start m s) ∨
    ∃ rest, m = rest + steps ∧
      p.resume limit body start m s = p.resume limit body target rest t

namespace Leads

variable {p : Program} {limit : Option Nat} {body : Body} {start middle target : Next}
  {s t u : State} {j k : Nat}

theorem refl (start : Next) (s : State) : Leads p limit body start s 0 start s :=
  ⟨⟨0, fun _ _ => rfl⟩, fun m => .inr ⟨m, rfl, rfl⟩⟩

theorem trans (first : Leads p limit body start s j middle t)
    (second : Leads p limit body middle t k target u) :
    Leads p limit body start s (j + k) target u := by
  obtain ⟨n, enough⟩ := first.enough
  obtain ⟨n', enough'⟩ := second.enough
  constructor
  · refine ⟨max n n', fun m bound => ?_⟩
    rw [show m + (j + k) = (m + k) + j by omega, enough (m + k) (by omega), enough' m (by omega)]
  · intro m
    rcases first.always m with starved | ⟨rest, rfl, equal⟩
    · exact .inl starved
    · rcases second.always rest with starved | ⟨rest', rfl, equal'⟩
      · exact .inl (equal ▸ starved)
      · exact .inr ⟨rest', by omega, equal.trans equal'⟩

theorem settles {answer : Answer (Option Value)} (leads : Leads p limit body start s j target t)
    (rest : Settles (p.resume limit body target) t answer) :
    Settles (p.resume limit body start) s answer := by
  obtain ⟨n, enough⟩ := leads.enough
  obtain ⟨n', enough'⟩ := rest.enough
  constructor
  · refine ⟨max n n' + j, fun m bound => ?_⟩
    rw [show m = (m - j) + j by omega, enough (m - j) (by omega)]
    exact enough' (m - j) (by omega)
  · intro m
    rcases leads.always m with starved | ⟨rest', rfl, equal⟩
    · exact .inr starved
    · rw [equal]
      exact rest.always rest'

/-- Fuel that is used up behind some steps allows for those steps too. -/
theorem starved {n : Nat} (leads : Leads p limit body start s j target t)
    (rest : ∀ m ≤ n, Starved (p.resume limit body target m t)) :
    ∀ m ≤ n + j, Starved (p.resume limit body start m s) := by
  intro m bound
  rcases leads.always m with starved | ⟨rest', rfl, equal⟩
  · exact starved
  · rw [equal]
    exact rest rest' (by omega)

end Leads

section

variable {p : Program} {limit : Option Nat} {body : Body} {place : Nat} {stmt : Stmt}
  {s t : State}

theorem starved_zero : Starved (p.resume limit body (.goto place) 0 s) := ⟨s, rfl⟩

/-- A statement that settles on where to go leads there. -/
theorem Leads.step {next : Next} (get : body[place]? = some stmt)
    (settles : Settles (fun m => Run.stmt (p.callee limit m) body s.inEntry place stmt) s
      (.ok next t)) :
    Leads p limit body (.goto place) s 1 next t := by
  obtain ⟨n, enough⟩ := settles.enough
  constructor
  · refine ⟨n, fun m bound => ?_⟩
    rw [Program.resume, p.runFrom_succ limit m get, enough m bound]
  · intro m
    cases m with
    | zero => exact .inl starved_zero
    | succ m =>
      rw [Program.resume, p.runFrom_succ limit m get]
      rcases settles.always m with given | ⟨u, given⟩
      · exact .inr ⟨m, rfl, by rw [given]⟩
      · exact .inl ⟨u, by rw [given]⟩

theorem Settles.stop {stop : Stop} (get : body[place]? = some stmt)
    (settles : Settles (fun m => Run.stmt (p.callee limit m) body s.inEntry place stmt) s
      (.error stop t)) :
    Settles (p.resume limit body (.goto place)) s (.error stop t) := by
  obtain ⟨n, enough⟩ := settles.enough
  constructor
  · refine ⟨n + 1, fun m bound => ?_⟩
    obtain ⟨k, rfl⟩ := Nat.exists_eq_add_of_le' (Nat.le_of_add_left_le bound)
    rw [Program.resume, p.runFrom_succ limit k get, enough k (by omega)]
  · intro m
    cases m with
    | zero => exact .inr starved_zero
    | succ m =>
      rw [Program.resume, p.runFrom_succ limit m get]
      rcases settles.always m with given | ⟨u, given⟩
      · exact .inl (by rw [given])
      · exact .inr ⟨u, by rw [given]⟩

theorem starved_step {n : Nat} (get : body[place]? = some stmt)
    (starved : ∀ m ≤ n,
      Starved (Run.stmt (p.callee limit m) body s.inEntry place stmt s)) :
    ∀ m ≤ n + 1, Starved (p.resume limit body (.goto place) m s) := by
  intro m bound
  cases m with
  | zero => exact starved_zero
  | succ m =>
    obtain ⟨u, given⟩ := starved m (by omega)
    exact ⟨u, by rw [Program.resume, p.runFrom_succ limit m get, given]⟩

end

def Halts (body : Body) (value : Option Value) (target : Next) : Prop :=
  target = .ret value ∨ (value = none ∧ ∃ place, target = .goto place ∧ body[place]? = none)

theorem Halts.settles {p : Program} {limit : Option Nat} {body : Body} {value : Option Value}
    {target : Next} {t : State} (halts : Halts body value target) :
    Settles (p.resume limit body target) t (.ok value t) := by
  rcases halts with rfl | ⟨rfl, place, rfl, get⟩
  · exact ⟨⟨0, fun _ _ => rfl⟩, fun _ => .inl rfl⟩
  · constructor
    · refine ⟨1, fun m bound => ?_⟩
      obtain ⟨k, rfl⟩ := Nat.exists_eq_add_of_le' bound
      exact p.runFrom_end limit k get t
    · intro m
      cases m with
      | zero => exact .inr starved_zero
      | succ m => exact .inl (p.runFrom_end limit m get t)

/-- From `start` on the flat run does what `x` does: where `x` gives `a`, the run gets to
a target that `ends a` allows; it stops with the fault of `x`; and where `x` lacks fuel, it
lacks fuel with any up to `n`. -/
def Matches (p : Program) (limit : Option Nat) (body : Body)
    (before : State → State → Prop) (after : α → State → State → Prop)
    (faulty : State → State → Prop) (n : Nat) (start : Next) (x : Run α)
    (ends : α → Next → Prop) : Prop :=
  ∀ s t, before s t →
    match x s with
    | .ok a s' => ∃ target t' k, ends a target ∧ after a s' t' ∧
        Leads p limit body start t k target t'
    | .error (.fault f) s' => ∃ t', faulty s' t' ∧
        Settles (p.resume limit body start) t (.error (.fault f) t')
    | .error .outOfFuel _ => ∀ m ≤ n, Starved (p.resume limit body start m t)

namespace Matches

variable {p : Program} {limit : Option Nat} {body : Body}
  {before faulty : State → State → Prop} {after : α → State → State → Prop} {n : Nat}
  {start : Next}

theorem pure {a : α} {ends : α → Next → Prop} (here : ends a start)
    (within : ∀ s t, before s t → after a s t) :
    Matches p limit body before after faulty n start (Pure.pure a) ends :=
  fun s t related => ⟨start, t, 0, here, within s t related, .refl start t⟩

theorem bind {middle : α → State → State → Prop} {after : β → State → State → Prop}
    {x : Run α} {f : α → Run β} {ends : α → Next → Prop} {ends' : β → Next → Prop}
    (first : Matches p limit body before middle faulty n start x ends)
    (second : ∀ a target, ends a target →
      Matches p limit body (middle a) after faulty n target (f a) ends') :
    Matches p limit body before after faulty n start (x >>= f) ends' := by
  intro s t related
  have head := first s t related
  cases given : x s with
  | ok a s' =>
    simp only [given] at head
    obtain ⟨target, t', k, allowed, related', leads⟩ := head
    have tail := second a target allowed s' t' related'
    rw [Run.bind_of_ok f given]
    cases given' : f a s' with
    | ok b s'' =>
      simp only [given'] at tail ⊢
      obtain ⟨target', t'', j, allowed', related'', leads'⟩ := tail
      exact ⟨target', t'', k + j, allowed', related'', leads.trans leads'⟩
    | error stop s'' =>
      cases stop with
      | fault _ =>
        simp only [given'] at tail ⊢
        obtain ⟨t'', related'', settles⟩ := tail
        exact ⟨t'', related'', leads.settles settles⟩
      | outOfFuel =>
        simp only [given'] at tail ⊢
        exact fun m bound => leads.starved tail m (by omega)
  | error stop s' =>
    rw [Run.bind_of_error f given]
    cases stop with
    | fault _ => simpa only [given] using head
    | outOfFuel => simpa only [given] using head

theorem mono {x : Run α} {ends ends' : α → Next → Prop} {wider : α → State → State → Prop}
    (given : Matches p limit body before after faulty n start x ends)
    (weaker : ∀ a target, ends a target → ends' a target)
    (within : ∀ a s t, after a s t → wider a s t) :
    Matches p limit body before wider faulty n start x ends' := by
  intro s t related
  have head := given s t related
  cases given : x s with
  | ok a s' =>
    simp only [given] at head ⊢
    obtain ⟨target, t', k, allowed, related', leads⟩ := head
    exact ⟨target, t', k, weaker a target allowed, within a s' t' related', leads⟩
  | error stop s' =>
    cases stop with
    | fault _ => simpa only [given] using head
    | outOfFuel => simpa only [given] using head

/-- A statement that only goes elsewhere may come first. -/
theorem after_step {x : Run α} {ends : α → Next → Prop} {place : Nat} {stmt : Stmt}
    (get : body[place]? = some stmt)
    (goes : ∀ invoke isEntry t, Run.stmt invoke body isEntry place stmt t = .ok start t)
    (rest : Matches p limit body before after faulty n start x ends) :
    Matches p limit body before after faulty (n + 1) (.goto place) x ends := by
  intro s t related
  have step : Leads p limit body (.goto place) t 1 start t :=
    .step get ⟨⟨0, fun _ _ => goes _ _ _⟩, fun _ => .inl (goes _ _ _)⟩
  have tail := rest s t related
  cases given : x s with
  | ok a s' =>
    simp only [given] at tail ⊢
    obtain ⟨target, t', k, allowed, related', leads⟩ := tail
    exact ⟨target, t', 1 + k, allowed, related', step.trans leads⟩
  | error stop s' =>
    cases stop with
    | fault _ =>
      simp only [given] at tail ⊢
      obtain ⟨t', related', settles⟩ := tail
      exact ⟨t', related', step.settles settles⟩
    | outOfFuel =>
      simp only [given] at tail ⊢
      exact step.starved tail

theorem pass_label {x : Run α} {ends : α → Next → Prop} {place : Nat} {l : Label}
    {code : List Stmt} (stands : CodeAt body place (.label l :: code))
    (rest : Matches p limit body before after faulty n (.goto (place + 1)) x ends) :
    Matches p limit body before after faulty (n + 1) (.goto place) x ends :=
  rest.after_step stands.get fun _ _ _ => rfl

theorem jump {x : Run α} {ends : α → Next → Prop} {place target : Nat} {l : Label}
    {code : List Stmt} (stands : CodeAt body place (.goto l :: code))
    (leads : body.labelPlace? l = some target)
    (rest : Matches p limit body before after faulty n (.goto target) x ends) :
    Matches p limit body before after faulty (n + 1) (.goto place) x ends :=
  rest.after_step stands.get fun _ _ _ => by simp [Run.stmt, Run.jump, leads]

theorem le {x : Run α} {ends : α → Next → Prop} {j : Nat}
    (given : Matches p limit body before after faulty n start x ends) (le : j ≤ n) :
    Matches p limit body before after faulty j start x ends := by
  intro s t related
  have head := given s t related
  cases given : x s with
  | ok a s' => simpa only [given] using head
  | error stop s' =>
    cases stop with
    | fault _ => simpa only [given] using head
    | outOfFuel =>
      simp only [given] at head ⊢
      exact fun m bound => head m (by omega)

/-- The statement at a place does what `x` does, and its callees have one unit of fuel less. -/
theorem of_follows {x : Run α} {ends : α → Next → Prop} {place : Nat} {stmt : Stmt}
    {isEntry : Bool} (get : body[place]? = some stmt)
    (entry : ∀ s t, before s t → t.inEntry = isEntry)
    (follows : Follows before after faulty ends n x
      (fun m => Run.stmt (p.callee limit m) body isEntry place stmt)) :
    Matches p limit body before after faulty (n + 1) (.goto place) x ends := by
  intro s t related
  have head := follows s t related
  rw [← entry s t related] at head
  cases given : x s with
  | ok a s' =>
    simp only [given] at head ⊢
    obtain ⟨target, t', allowed, related', settles⟩ := head
    exact ⟨target, t', 1, allowed, related', .step get settles⟩
  | error stop s' =>
    cases stop with
    | fault _ =>
      simp only [given] at head ⊢
      obtain ⟨t', related', settles⟩ := head
      exact ⟨t', related', settles.stop get⟩
    | outOfFuel =>
      simp only [given] at head ⊢
      exact starved_step get head

/-- A run of a body that gets to a return or past the end is over. -/
theorem run {after : Option Value → State → State → Prop} {x : Run (Option Value)}
    (given : Matches p limit body before after faulty n (.goto 0) x (Halts body)) :
    Follows before after faulty Eq n x (fun m => p.runFrom limit m body 0) := by
  intro s t related
  have head := given s t related
  cases given : x s with
  | ok value s' =>
    simp only [given] at head ⊢
    obtain ⟨target, t', k, halts, related', leads⟩ := head
    exact ⟨value, t', rfl, related', leads.settles halts.settles⟩
  | error stop s' =>
    cases stop with
    | fault _ =>
      simp only [given] at head ⊢
      exact head
    | outOfFuel =>
      simp only [given] at head ⊢
      exact head

end Matches

end ScriptLang
