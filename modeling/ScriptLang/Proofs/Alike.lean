import ScriptLang.Proofs.Fuel
import ScriptLang.Proofs.Mentions

/-! Two runs go side by side, and the second one keeps hidden variables besides those of the
first. Their states are alike in one activation if they agree on all numbers below a
bound. The frames of the callers stay as they are. -/

namespace ScriptLang

def AgreeBelow (next : Nat) (f g : Store) : Prop := ∀ id < next, f.get? id = g.get? id

theorem AgreeBelow.write {next : Nat} {f g : Store} (agree : AgreeBelow next f g) (v : Var)
    (value : Value) : AgreeBelow next (f.write v value) (g.write v value) := by
  intro id bound
  simp [Store.write, agree id bound]

theorem AgreeBelow.write_hidden {next : Nat} {f g : Store} (agree : AgreeBelow next f g)
    {u : Var} (hidden : next ≤ u.id) (value : Value) : AgreeBelow next f (g.write u value) := by
  intro id bound
  have other : id ≠ u.id := by omega
  simp [Store.write, agree id bound, other]

/-- What is fixed for two activations side by side: the bound, the frames of their callers,
and whether the values of expressions that stand alone are compared. -/
structure SideBySide where
  next : Nat
  firstCallers : List Store
  secondCallers : List Store
  sameDepth : firstCallers.length = secondCallers.length
  comparesLast : Bool

/-- Hidden variables of the second activation, with the values they hold. -/
abbrev Held := List (Var × Value)

structure Alike (c : SideBySide) (held : Held) (s t : State) : Prop where
  frames : ∃ f g, s.frames = f :: c.firstCallers ∧ t.frames = g :: c.secondCallers ∧
    AgreeBelow c.next f g
  globals : AgreeBelow c.next s.globals t.globals
  host : s.host = t.host
  last : c.comparesLast = true → s.last = t.last
  holds : ∀ b ∈ held, t.read? b.1 = some b.2
  hidden : ∀ b ∈ held, c.next ≤ b.1.id

structure AlikeOutside (c : SideBySide) (s t : State) : Prop where
  globals : AgreeBelow c.next s.globals t.globals
  host : s.host = t.host

def Held.Spares (held : Held) (u : Var) : Prop :=
  ∀ b ∈ held, b.1.isGlobal = u.isGlobal → b.1.id ≠ u.id

theorem State.read?_write_of_apart {s : State} {u w : Var} {value : Value}
    (apart : w.isGlobal = u.isGlobal → w.id ≠ u.id) : (s.write u value).read? w = s.read? w := by
  unfold State.write State.read?
  cases hu : u.isGlobal <;> cases hw : w.isGlobal
  · have other := apart (hw.trans hu.symm)
    cases hf : s.frames <;> simp [hf, other]
  · cases s.frames <;> simp
  · simp
  · simp [apart (hw.trans hu.symm)]

theorem State.frames_write {s : State} {u : Var} {value : Value} {f : Store} {fs : List Store}
    (frames : s.frames = f :: fs) :
    (s.write u value).frames = (if u.isGlobal then f else f.write u value) :: fs := by
  unfold State.write
  cases u.isGlobal <;> simp [frames]

@[simp] theorem State.host_write (s : State) (u : Var) (value : Value) :
    (s.write u value).host = s.host := by
  unfold State.write
  split
  · rfl
  · split <;> rfl

@[simp] theorem State.last_write (s : State) (u : Var) (value : Value) :
    (s.write u value).last = s.last := by
  unfold State.write
  split
  · rfl
  · split <;> rfl

@[simp] theorem State.globals_write (s : State) (u : Var) (value : Value) :
    (s.write u value).globals = if u.isGlobal then s.globals.write u value else s.globals := by
  unfold State.write
  cases u.isGlobal
  · simp only [Bool.false_eq_true, if_false]
    split <;> rfl
  · rfl

theorem State.read?_write_self {s : State} {u : Var} {value : Value} {f : Store}
    {fs : List Store} (frames : s.frames = f :: fs) :
    (s.write u value).read? u = some value := by
  unfold State.write State.read?
  cases u.isGlobal <;> simp [frames]

namespace Alike

variable {c : SideBySide} {held : Held} {s t : State}

theorem outside (alike : Alike c held s t) : AlikeOutside c s t := ⟨alike.globals, alike.host⟩

theorem mono {fewer : Held} (alike : Alike c held s t) (subset : ∀ b ∈ fewer, b ∈ held) :
    Alike c fewer s t :=
  { alike with
    holds := fun b member => alike.holds b (subset b member)
    hidden := fun b member => alike.hidden b (subset b member) }

theorem depth (alike : Alike c held s t) : s.frames.length = t.frames.length := by
  obtain ⟨f, g, hs, ht, _⟩ := alike.frames
  simp [hs, ht, c.sameDepth]

theorem inEntry (alike : Alike c held s t) : s.inEntry = t.inEntry := by
  obtain ⟨f, g, hs, ht, _⟩ := alike.frames
  have depth := c.sameDepth
  unfold State.inEntry
  rw [hs, ht]
  cases hf : c.firstCallers <;> cases hg : c.secondCallers <;> simp_all

theorem reached? (alike : Alike c held s t) (limit : Option Nat) :
    s.reached? limit = t.reached? limit := by
  unfold State.reached?
  rw [alike.depth]

theorem read? (alike : Alike c held s t) {v : Var} (below : v.id < c.next) :
    s.read? v = t.read? v := by
  obtain ⟨f, g, hs, ht, agree⟩ := alike.frames
  unfold State.read?
  cases v.isGlobal
  · simpa [hs, ht, Store.read?] using agree v.id below
  · simpa [Store.read?] using alike.globals v.id below

/-- Both write to a variable of the first run. -/
theorem write (alike : Alike c held s t) {v : Var} (below : v.id < c.next) (value : Value) :
    Alike c held (s.write v value) (t.write v value) := by
  obtain ⟨f, g, hs, ht, agree⟩ := alike.frames
  refine ⟨?_, ?_, by simpa using alike.host, by simpa using alike.last, ?_, alike.hidden⟩
  · rw [State.frames_write hs, State.frames_write ht]
    refine ⟨_, _, rfl, rfl, ?_⟩
    split
    · exact agree
    · exact agree.write v value
  · rw [State.globals_write, State.globals_write]
    split
    · exact alike.globals.write v value
    · exact alike.globals
  · intro b member
    have hidden := alike.hidden b member
    rw [State.read?_write_of_apart fun _ => by omega]
    exact alike.holds b member

/-- The second run writes to a hidden variable, which it then holds. -/
theorem hold (alike : Alike c held s t) {u : Var} (hidden : c.next ≤ u.id)
    (spares : held.Spares u) (value : Value) :
    Alike c ((u, value) :: held) s (t.write u value) := by
  obtain ⟨f, g, hs, ht, agree⟩ := alike.frames
  refine ⟨?_, ?_, by simpa using alike.host, by simpa using alike.last, ?_, ?_⟩
  · rw [State.frames_write ht]
    refine ⟨f, _, hs, rfl, ?_⟩
    split
    · exact agree
    · exact agree.write_hidden hidden value
  · rw [State.globals_write]
    split
    · exact alike.globals.write_hidden hidden value
    · exact alike.globals
  · intro b member
    rcases List.mem_cons.1 member with rfl | member
    · exact State.read?_write_self ht
    · rw [State.read?_write_of_apart (spares b member)]
      exact alike.holds b member
  · intro b member
    rcases List.mem_cons.1 member with rfl | member
    · exact hidden
    · exact alike.hidden b member

/-- Both keep the value of an expression that stood alone. -/
theorem keepLast (alike : Alike c held s t) (value : Option Value) :
    Alike c held { s with last := value } { t with last := value } :=
  { alike with last := fun _ => rfl }

/-- The second run keeps a value that is not compared. -/
theorem keepSecondLast (alike : Alike c held s t) (ignored : c.comparesLast = false)
    (value : Option Value) : Alike c held s { t with last := value } :=
  { alike with last := fun compared => by rw [ignored] at compared; contradiction }

theorem withHost (alike : Alike c held s t) (host : Host) :
    Alike c held { s with host } { t with host } :=
  { alike with host := rfl }

end Alike

/-- The activations of two callees, with the current frames among those of the callers. -/
def SideBySide.callees (c : SideBySide) (s t : State)
    (sameDepth : s.frames.length = t.frames.length) : SideBySide :=
  { c with firstCallers := s.frames, secondCallers := t.frames, sameDepth }

def Held.globals (held : Held) : Held := held.filter (·.1.isGlobal)

namespace Alike

variable {c : SideBySide} {held : Held} {s t s' t' : State}

/-- A call gives both activations the same new frame. -/
theorem push (alike : Alike c held s t) (frame : Store) :
    Alike (c.callees s t alike.depth) held.globals { s with frames := frame :: s.frames }
      { t with frames := frame :: t.frames } := by
  refine ⟨⟨frame, frame, rfl, rfl, fun _ _ => rfl⟩, alike.globals, alike.host, alike.last, ?_, ?_⟩
  · intro b member
    obtain ⟨member, isGlobal⟩ := List.mem_filter.1 member
    simpa [State.read?, isGlobal] using alike.holds b member
  · intro b member
    exact alike.hidden b (List.mem_filter.1 member).1

/-- After the call the callers go on with their frames. -/
theorem pop (alike : Alike c held s t)
    (after : Alike (c.callees s t alike.depth) held.globals s' t') :
    Alike c held { s' with frames := s'.frames.tail } { t' with frames := t'.frames.tail } := by
  obtain ⟨f, g, hs, ht, _⟩ := after.frames
  have backs : s'.frames.tail = s.frames := by rw [hs]; rfl
  have backt : t'.frames.tail = t.frames := by rw [ht]; rfl
  refine ⟨?_, after.globals, after.host, after.last, ?_, alike.hidden⟩
  · simpa only [backs, backt] using alike.frames
  · intro b member
    cases isGlobal : b.1.isGlobal
    · have held := alike.holds b member
      simp only [State.read?, isGlobal, Bool.false_eq_true, if_false] at held ⊢
      rw [backt]
      exact held
    · have held := after.holds b (List.mem_filter.2 ⟨member, isGlobal⟩)
      simpa [State.read?, isGlobal] using held

end Alike

end ScriptLang
