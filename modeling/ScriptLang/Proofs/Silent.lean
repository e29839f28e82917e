import ScriptLang.Binding.Unit

/-! Binding goes on after a mistake, so its result means something only where no error was
reported. `Sound given x P` says that of `x`: if no error has been reported at its end,
none had been reported at its start, and then `given` leads to `P`. `SoundAt s` says it of the run
that starts in the state `s`. -/

namespace ScriptLang

def BindState.Silent (s : BindState) : Prop := s.diagnostics.hasErrors = false

def SoundAt {α : Type} (s : BindState) (given : Prop) (x : Bind α) (P : α → Prop) : Prop :=
  (x s).2.Silent → s.Silent ∧ (given → P (x s).1)

namespace SoundAt

variable {α β : Type} {s : BindState} {given : Prop} {P : α → Prop} {Q : β → Prop} {x : Bind α}

theorem pure {a : α} (holds : given → P a) : SoundAt s given (Pure.pure a) P :=
  fun silent => ⟨silent, holds⟩

theorem bind {f : α → Bind β} (first : SoundAt s given x P)
    (second : SoundAt (x s).2 (given ∧ P (x s).1) (f (x s).1) Q) :
    SoundAt s given (x >>= f) Q := by
  intro silent
  obtain ⟨between, rest⟩ := second silent
  obtain ⟨before, head⟩ := first between
  exact ⟨before, fun holds => rest ⟨holds, head holds⟩⟩

end SoundAt

def Sound {α : Type} (given : Prop) (x : Bind α) (P : α → Prop) : Prop :=
  ∀ s, (x s).2.Silent → s.Silent ∧ (given → P (x s).1)

namespace Sound

variable {α β : Type} {given : Prop} {P : α → Prop} {Q : β → Prop}

theorem pure {a : α} (holds : given → P a) : Sound given (Pure.pure a) P :=
  fun _ => SoundAt.pure holds

theorem bind {x : Bind α} {f : α → Bind β} (first : Sound given x P)
    (second : ∀ a, Sound (given ∧ P a) (f a) Q) : Sound given (x >>= f) Q :=
  fun s => SoundAt.bind (first s) (second _ _)

theorem mono {other : Prop} {R : α → Prop} {x : Bind α} (sound : Sound given x P)
    (stronger : other → given) (weaker : ∀ a, other → P a → R a) : Sound other x R := by
  intro s silent
  obtain ⟨before, holds⟩ := sound s silent
  exact ⟨before, fun holdsOther => weaker _ holdsOther (holds (stronger holdsOther))⟩

theorem and {R : α → Prop} {x : Bind α} (sound : Sound given x P) (always : ∀ s, R (x s).1) :
    Sound given x fun a => P a ∧ R a := by
  intro s silent
  obtain ⟨before, holds⟩ := sound s silent
  exact ⟨before, fun is => ⟨holds is, always s⟩⟩

theorem fresh {x : Fresh α} (holds : ∀ n, given → P (x n).1) : Sound given (Bind.fresh x) P :=
  fun s silent => ⟨silent, holds s.nextId⟩

theorem get {P : BindState → Prop} (holds : given → ∀ s : BindState, P s) :
    Sound given (MonadState.get : Bind BindState) P :=
  fun s silent => ⟨silent, fun is => holds is s⟩

theorem silent {x : Bind α} (sound : Sound False x P) : Sound given x fun _ => True :=
  fun s silent => ⟨(sound s silent).1, fun _ => trivial⟩

/-- What comes after the report of an error need not be right. -/
theorem reported {file : Option String} {range : TextRange} {m : Message} {args : List String}
    {f : PUnit → Bind β} (isError : m.category = .error)
    (second : ∀ a, Sound False (f a) fun _ => True) :
    Sound given (Bind.report file range m args >>= f) Q := by
  intro s silent
  have later := (second ⟨⟩ (Bind.report file range m args s).2 silent).1
  simp [BindState.Silent, Bind.report, Diagnostics.hasErrors, Diagnostic.isError,
    Diagnostic.ofMessage, isError] at later

theorem refused {file : Option String} {range : TextRange} {m : Message} {args : List String}
    {b : β} (isError : m.category = .error) :
    Sound given (do
      Bind.report file range m args
      return b) Q := reported isError fun _ => .pure fun _ => trivial

end Sound

theorem Sound.at {α : Type} {given : Prop} {x : Bind α} {P : α → Prop} (sound : Sound given x P)
    (s : BindState) : SoundAt s given x P := sound s

end ScriptLang
