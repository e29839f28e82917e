import ScriptLang.Proofs.ActivationRuns

/-! What an activation does from one place of its body to another, statement by statement: the places
it comes to with the states there. Calls are single steps of a stretch. What every statement on
the way maintains holds all along. -/

namespace ScriptLang

structure Visit where
  place : Nat
  state : State

/-- A run of the body from one place and state to another one, with its visits on the way. -/
inductive Stretch (p : Program) (limit : Option Nat) (body : Body) :
    Nat → State → List Visit → Nat → State → Prop
  | nil (place : Nat) (s : State) : Stretch p limit body place s [] place s
  | cons {place next target : Nat} {s t u : State} {stmt : Stmt} {visits : List Visit}
      (get : body[place]? = some stmt)
      (settles : Settles (fun m => Run.stmt (p.callee limit m) body s.inEntry place stmt) s
        (.ok (.goto next) t))
      (rest : Stretch p limit body next t visits target u) :
      Stretch p limit body place s (⟨place, s⟩ :: visits) target u

/-- The values of a variable at the visits to a place. -/
def valuesAt (v : Var) (place : Nat) (visits : List Visit) : List (Option Value) :=
  (visits.filter fun visit => visit.place = place).map fun visit => visit.state.read? v

section

variable {v : Var} {place : Nat}

@[simp] theorem valuesAt_nil : valuesAt v place [] = [] := rfl

theorem valuesAt_append (visits visits' : List Visit) :
    valuesAt v place (visits ++ visits') = valuesAt v place visits ++ valuesAt v place visits' := by
  simp [valuesAt]

theorem valuesAt_cons (visit : Visit) (visits : List Visit) :
    valuesAt v place (visit :: visits) =
      if visit.place = place then visit.state.read? v :: valuesAt v place visits
      else valuesAt v place visits := by
  by_cases here : visit.place = place <;> simp [valuesAt, here]

/-- Visits elsewhere do not count. -/
theorem valuesAt_of_apart {visits : List Visit} (apart : ∀ visit ∈ visits, visit.place ≠ place) :
    valuesAt v place visits = [] := by
  unfold valuesAt
  rw [List.filter_eq_nil_iff.2 fun visit member => by simpa using apart visit member]
  rfl

end

namespace Stretch

variable {p : Program} {limit : Option Nat} {body : Body} {place next target : Nat} {s t u : State}
  {visits visits' : List Visit}

/-- A statement that leads on at once, whatever fuel its calls get. -/
theorem one {stmt : Stmt} (get : body[place]? = some stmt)
    (leads : ∀ m, Run.stmt (p.callee limit m) body s.inEntry place stmt s = .ok (.goto next) t) :
    Stretch p limit body place s [⟨place, s⟩] next t :=
  .cons get ⟨⟨0, fun m _ => leads m⟩, fun m => .inl (leads m)⟩ (.nil next t)

theorem append (first : Stretch p limit body place s visits next t)
    (second : Stretch p limit body next t visits' target u) :
    Stretch p limit body place s (visits ++ visits') target u := by
  induction first with
  | nil => exact second
  | cons get settles _ ih => exact .cons get settles (ih second)

/-- Run for as many steps as it has visits, a stretch leads to where it ends. -/
theorem leads (stretch : Stretch p limit body place s visits target t) :
    Leads p limit body (.goto place) s visits.length (.goto target) t := by
  induction stretch with
  | nil place s => exact .refl (.goto place) s
  | @cons _ _ _ _ _ _ _ visits get settles _ ih =>
    rw [List.length_cons, Nat.add_comm]
    exact (Leads.step get settles).trans ih

/-- What all statements on the way maintain holds at all visits and at the end. -/
theorem maintains {I : State → Prop} (stretch : Stretch p limit body place s visits target t)
    (each : ∀ visit ∈ visits, ∀ stmt, body[visit.place]? = some stmt → ∀ m isEntry,
      Maintains I (Run.stmt (p.callee limit m) body isEntry visit.place stmt)) (holds : I s) :
    (∀ visit ∈ visits, I visit.state) ∧ I t := by
  induction stretch with
  | nil => exact ⟨List.forall_mem_nil _, holds⟩
  | cons get settles _ ih =>
    obtain ⟨here, later⟩ := List.forall_mem_cons.1 each
    obtain ⟨n, enough⟩ := settles.enough
    have behind := (here _ get n _).of_ok holds (enough n (Nat.le_refl n))
    obtain ⟨onTheWay, atEnd⟩ := ih later behind
    exact ⟨List.forall_mem_cons.2 ⟨holds, onTheWay⟩, atEnd⟩

end Stretch

/-- The variable of the innermost activation. -/
theorem State.valueIn_innermost (s : State) (v : Var) (active : 0 < s.frames.length) :
    s.valueIn (s.frames.length - 1) v = s.read? v := by
  obtain ⟨frame, below, frames⟩ := List.exists_cons_of_length_pos active
  unfold valueIn read?
  rw [frames]
  simp

/-- Where calls leave a global variable alone, a statement that does not write the variable leaves
it alone. -/
theorem Run.stmt_shows {p : Program} {limit : Option Nat} {m : Nat} {v : Var} {callers size : Nat}
    {value : Option Value} {stmt : Stmt} (body : Body) (isEntry : Bool) (place : Nat)
    (spares : ∀ w ∈ stmt.written, w.id ≠ v.id)
    (calls : v.isGlobal = true → ∀ f ∈ stmt.calls, ∀ args x,
      Maintains (fun s => s.globals.read? v = x) (f.apply (p.callee limit m) args)) :
    Maintains (State.Shows v callers value size)
      (Run.stmt (p.callee limit m) body isEntry place stmt) :=
  Run.stmt_maintains body isEntry place (fun w written x => Run.write_shows (.inl (spares w written)) x)
    (fun f called args => Program.callee_shows fun isGlobal x => calls isGlobal f called args x)
    fun _ _ _ _ holds => ⟨holds.size, holds.value⟩

theorem Stmt.mem_callsOf {f : Fn} {s : Stmt} {ss : List Stmt} (called : f ∈ s.calls) (member : s ∈ ss) :
    f ∈ callsOf ss := by
  induction ss with
  | nil => contradiction
  | cons first rest ih =>
    rcases List.mem_cons.1 member with rfl | member
    · exact List.mem_append_left _ called
    · exact List.mem_append_right _ (ih member)

namespace Program

variable {p : Program} {v : Var} {f : Fn}

/-- The body of the first function calls the second one. -/
def Calls (p : Program) (f g : Fn) : Prop := ∃ body, p.body? f = some body ∧ g ∈ Stmt.callsOf body

/-- Neither the function nor any that is called on the way writes the variable. -/
def CallSpares (p : Program) (v : Var) (f : Fn) : Prop :=
  ∀ g body, Relation.ReflTransGen p.Calls f g → p.body? g = some body → body.Spares v

/-- A call leaves a global variable alone that it does not write. -/
theorem CallSpares.keepsGlobal (spares : p.CallSpares v f) (limit : Option Nat) (fuel : Nat)
    (args : List Value) (value : Option Value) :
    Maintains (fun s => s.globals.read? v = value) (f.apply (p.callee limit fuel) args) := by
  induction fuel using Nat.strongRecOn generalizing f args with
  | ind fuel ih =>
    refine p.callee_maintains limit (fun _ _ holds => holds) args fun _ body found => ?_
    have runs : Maintains (fun s => s.globals.read? v = value) (p.runFrom limit fuel body 0) := by
      refine p.runFrom_maintains limit fuel (fun n less s within isEntry place _ => ?_) 0
      refine Run.stmt_maintains body isEntry place (fun w written x => ?_) (fun g called args => ?_)
        fun _ _ _ _ holds => holds
      · exact Run.write_keepsGlobal (spares f body .refl found s within w written) x
      · have calls : p.Calls f g := ⟨body, found, Stmt.mem_callsOf called within⟩
        exact ih n less (fun h code path => spares h code (.head calls path)) args
    exact .inFrame runs (fun _ holds => holds) fun _ holds => holds

end Program

end ScriptLang
