import Mathlib.Data.List.Forall2
import ScriptLang.Proofs.Fuel
import ScriptLang.Proofs.Typing

/-! In a typed state every value that is stored belongs to a known variable and has its type.
`Keeps` says of a computation that it goes from typed states to typed states, and that the
only defect for which it may stop is a variable without a value. -/

namespace ScriptLang

def ToldApart (known : Var → Prop) : Prop := ∀ v w, known v → known w → v.id = w.id → v = w

def Store.Typed (known : Var → Prop) (store : Store) : Prop :=
  ∀ id value, store.get? id = some value → ∃ v, known v ∧ v.id = id ∧ value.HasType v.ty

namespace Store.Typed

variable {known : Var → Prop} {store : Store}

theorem empty : Store.Typed known .empty := by
  intro id value given
  simp at given

theorem write (typed : store.Typed known) {v : Var} {value : Value} (isKnown : known v)
    (hasType : value.HasType v.ty) : (store.write v value).Typed known := by
  intro id found given
  rw [Store.write, OrderedMap.get?_insert] at given
  split at given
  next same =>
    obtain rfl := Option.some.inj given
    exact ⟨v, isKnown, same.symm, hasType⟩
  next => exact typed id found given

/-- Where known variables are told apart, what is stored for one of them has its type. -/
theorem read (typed : store.Typed known) (unique : ToldApart known) {v : Var} {value : Value}
    (isKnown : known v) (given : store.read? v = some value) : value.HasType v.ty := by
  obtain ⟨w, isKnown', same, hasType⟩ := typed v.id value given
  exact unique w v isKnown' isKnown same ▸ hasType

theorem ofArguments {parameters : List Var} {values : List Value}
    (isKnown : ∀ p ∈ parameters, known p)
    (fit : List.Forall₂ (fun (p : Var) (value : Value) => value.HasType p.ty) parameters values) :
    (Store.ofArguments parameters values).Typed known := by
  have typed : Store.Typed known .empty := empty
  unfold Store.ofArguments
  revert typed
  generalize (OrderedMap.empty : Store) = store
  intro typed
  induction fit generalizing store with
  | nil => exact typed
  | cons hasType _ ih =>
    obtain ⟨first, rest⟩ := List.forall_mem_cons.1 isKnown
    exact ih rest _ (typed.write first hasType)

end Store.Typed

structure State.Typed (known : Var → Prop) (s : State) : Prop where
  globals : s.globals.Typed known
  frames : ∀ frame ∈ s.frames, Store.Typed known frame

namespace State.Typed

variable {known : Var → Prop} {s : State}

theorem write (typed : s.Typed known) {v : Var} {value : Value} (isKnown : known v)
    (hasType : value.HasType v.ty) : (s.write v value).Typed known := by
  unfold State.write
  split
  · exact ⟨typed.globals.write isKnown hasType, typed.frames⟩
  · cases frames : s.frames with
    | nil => exact typed
    | cons frame rest =>
      have inner := typed.frames
      rw [frames] at inner
      obtain ⟨first, others⟩ := List.forall_mem_cons.1 inner
      exact ⟨typed.globals, List.forall_mem_cons.2 ⟨first.write isKnown hasType, others⟩⟩

theorem read (typed : s.Typed known) (unique : ToldApart known) {v : Var} {value : Value}
    (isKnown : known v) (given : s.read? v = some value) : value.HasType v.ty := by
  unfold State.read? at given
  split at given
  · exact typed.globals.read unique isKnown given
  · obtain ⟨frame, head, given⟩ := Option.bind_eq_some_iff.1 given
    exact (typed.frames frame (List.mem_of_mem_head? head)).read unique isKnown given

theorem push (typed : s.Typed known) {frame : Store} (frameTyped : frame.Typed known) :
    State.Typed known { s with frames := frame :: s.frames } :=
  ⟨typed.globals, List.forall_mem_cons.2 ⟨frameTyped, typed.frames⟩⟩

theorem pop (typed : s.Typed known) : State.Typed known { s with frames := s.frames.tail } :=
  ⟨typed.globals, fun frame member => typed.frames frame (List.mem_of_mem_tail member)⟩

end State.Typed

/-- Any fault but a defect, or a defect that binding cannot rule out. -/
def Stop.Allowed (stop : Stop) : Prop :=
  ∀ d, stop = .fault (.defect d) → ∃ name, d = .unassigned name

/-- From typed states the computation leads to typed states and gives values with `P`, or it
stops for an allowed reason. -/
def Keeps {α : Type} (known : Var → Prop) (x : Run α) (P : α → Prop) : Prop :=
  ∀ s, s.Typed known →
    match x s with
    | .ok a t => t.Typed known ∧ P a
    | .error stop t => t.Typed known ∧ stop.Allowed

namespace Keeps

variable {α β : Type} {known : Var → Prop} {P : α → Prop} {Q : β → Prop}

theorem pure {a : α} (holds : P a) : Keeps known (Pure.pure a) P := fun _ typed => ⟨typed, holds⟩

theorem bind {x : Run α} {f : α → Run β} (first : Keeps known x P)
    (second : ∀ a, P a → Keeps known (f a) Q) : Keeps known (x >>= f) Q := by
  intro s typed
  have head := first s typed
  cases given : x s with
  | ok a t =>
    rw [given] at head
    rw [Run.bind_of_ok f given]
    exact second a head.2 t head.1
  | error stop t =>
    rw [given] at head
    rw [Run.bind_of_error f given]
    exact head

theorem mono {P' : α → Prop} {x : Run α} (keeps : Keeps known x P) (weaker : ∀ a, P a → P' a) :
    Keeps known x P' := by
  intro s typed
  have head := keeps s typed
  cases given : x s with
  | ok a t =>
    rw [given] at head
    exact ⟨head.1, weaker a head.2⟩
  | error stop t =>
    rw [given] at head
    exact head

theorem fault {f : Fault} (allowed : Stop.Allowed (.fault f)) : Keeps known (Run.fault f) P :=
  fun _ typed => ⟨typed, allowed⟩

theorem get_bind {f : State → Run β} (second : ∀ s, Keeps known (f s) Q) :
    Keeps known (get >>= f) Q := by
  intro s typed
  rw [Run.bind_of_ok f (Run.get_apply s)]
  exact second s s typed

/-- Only the variables matter. -/
theorem modify {f : State → State} {P : PUnit → Prop}
    (same : ∀ s, (f s).globals = s.globals ∧ (f s).frames = s.frames) (holds : P ⟨⟩) :
    Keeps known (modify f : Run PUnit) P := by
  intro s typed
  refine ⟨⟨?_, ?_⟩, holds⟩
  · exact (same s).1 ▸ typed.globals
  · exact (same s).2 ▸ typed.frames

theorem write {v : Var} {value : Value} (isKnown : known v) (hasType : value.HasType v.ty) :
    Keeps known (Run.write v value) fun _ => True :=
  fun _ typed => ⟨typed.write isKnown hasType, trivial⟩

theorem read (unique : ToldApart known) {v : Var} (isKnown : known v) :
    Keeps known (Run.read v) fun value => value.HasType v.ty := by
  intro s typed
  rw [Run.read_apply]
  cases given : s.read? v with
  | some value => exact ⟨typed, typed.read unique isKnown given⟩
  | none =>
    refine ⟨typed, fun d equal => ⟨v.name, ?_⟩⟩
    simpa using equal.symm

/-- A frame is pushed for the time of a computation. -/
theorem inFrame {x : Run α} {frame : Store} (frameTyped : frame.Typed known)
    (keeps : Keeps known x P) : Keeps known (Run.inFrame frame x) P := by
  intro s typed
  have head := keeps { s with frames := frame :: s.frames } (typed.push frameTyped)
  rw [Run.inFrame_apply]
  cases given : x { s with frames := frame :: s.frames } with
  | ok a t =>
    rw [given] at head
    exact ⟨head.1.pop, head.2⟩
  | error stop t =>
    rw [given] at head
    exact ⟨head.1.pop, head.2⟩

end Keeps

end ScriptLang
