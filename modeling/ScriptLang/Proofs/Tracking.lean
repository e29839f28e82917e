import ScriptLang.Proofs.Mentions
import ScriptLang.Proofs.Symbols

/-! Symbols are told apart by their numbers. A census is a set of variables, or of functions,
in which that works. Binding makes new symbols, so it leaves a larger census, which knows
what its result mentions if the old one knows what it starts from. -/

namespace ScriptLang

variable {ι : Type} {id : ι → Nat}

/-- The symbols have numbers below `next`, each of them its own. -/
structure Census (id : ι → Nat) (known : ι → Prop) (next : Nat) : Prop where
  below : ∀ v, known v → id v < next
  unique : ∀ v w, known v → known w → id v = id w → v = w

namespace Census

variable {known : ι → Prop} {next : Nat}

theorem le {later : Nat} (census : Census id known next) (le : next ≤ later) :
    Census id known later :=
  { census with below := fun v member => Nat.lt_of_lt_of_le (census.below v member) le }

theorem sub {fewer : ι → Prop} (census : Census id known next) (among : ∀ v, fewer v → known v) :
    Census id fewer next :=
  ⟨fun v member => census.below v (among v member),
    fun v w member member' => census.unique v w (among v member) (among w member')⟩

/-- A symbol with a new number joins. -/
theorem insert {v : ι} (census : Census id known next) (fresh : id v = next) :
    Census id (fun w => known w ∨ w = v) (next + 1) := by
  constructor
  · rintro w (member | rfl)
    · exact Nat.lt_succ_of_lt (census.below w member)
    · omega
  · rintro w u (member | rfl) (member' | rfl) same
    · exact census.unique w u member member' same
    · have := census.below w member
      omega
    · have := census.below u member'
      omega
    · rfl

end Census

/-- Whatever the state, `x` gives a value with `P`. A census that knows `S` grows to one that
knows what `T` says of the value. -/
def Tracks {α : Type} (id : ι → Nat) (S : ι → Prop) (x : Bind α) (P : α → Prop)
    (T : α → ι → Prop) : Prop :=
  ∀ s, (s.nextId ≤ (x s).2.nextId ∧ P (x s).1) ∧
    ∀ known, Census id known s.nextId → (∀ v, S v → known v) →
      ∃ more, (∀ v, known v → more v) ∧ Census id more (x s).2.nextId ∧ ∀ v, T (x s).1 v → more v

namespace Tracks

variable {α β : Type} {S : ι → Prop} {P : α → Prop} {T : α → ι → Prop}

/-- A computation that makes no such symbols keeps the census. -/
theorem of_le {x : Bind α} (holds : ∀ s, s.nextId ≤ (x s).2.nextId ∧ P (x s).1)
    (within : ∀ s v, T (x s).1 v → S v) : Tracks id S x P T :=
  fun s => ⟨holds s, fun known census knows =>
    ⟨known, fun _ member => member, census.le (holds s).1,
      fun v member => knows v (within s v member)⟩⟩

theorem le {x : Bind α} (tracks : Tracks id S x P T) (s : BindState) :
    s.nextId ≤ (x s).2.nextId := (tracks s).1.1

theorem holds {x : Bind α} (tracks : Tracks id S x P T) (s : BindState) : P (x s).1 :=
  (tracks s).1.2

theorem pure {a : α} (holds : P a) (within : ∀ v, T a v → S v) :
    Tracks id S (Pure.pure a) P T :=
  .of_le (fun _ => ⟨Nat.le_refl _, holds⟩) fun _ => within

theorem bind {x : Bind α} {f : α → Bind β} {Q : β → Prop} {U : β → ι → Prop}
    (first : Tracks id S x P T)
    (second : ∀ a, P a → Tracks id (fun v => S v ∨ T a v) (f a) Q U) :
    Tracks id S (x >>= f) Q U := by
  intro s
  obtain ⟨⟨le, holds⟩, grows⟩ := first s
  obtain ⟨⟨le', holds'⟩, grows'⟩ := second (x s).1 holds (x s).2
  refine ⟨⟨Nat.le_trans le le', holds'⟩, fun known census knows => ?_⟩
  obtain ⟨more, wider, census', knows'⟩ := grows known census knows
  obtain ⟨most, wider', census'', knows''⟩ := grows' more census' fun v member => by
    rcases member with old | new
    · exact wider v (knows v old)
    · exact knows' v new
  exact ⟨most, fun v member => wider' v (wider v member), census'', knows''⟩

theorem mono {S' : ι → Prop} {P' : α → Prop} {T' : α → ι → Prop} {x : Bind α}
    (tracks : Tracks id S x P T) (more : ∀ v, S v → S' v) (weaker : ∀ a, P a → P' a)
    (fewer : ∀ a v, T' a v → S' v ∨ T a v) : Tracks id S' x P' T' := by
  intro s
  obtain ⟨⟨le, holds⟩, grows⟩ := tracks s
  refine ⟨⟨le, weaker _ holds⟩, fun known census knows => ?_⟩
  obtain ⟨wide, wider, census', knows'⟩ := grows known census fun v member => knows v (more v member)
  refine ⟨wide, wider, census', fun v member => ?_⟩
  rcases fewer _ v member with old | new
  · exact wider v (knows v old)
  · exact knows' v new

/-- A computation that makes no such symbols may come first. -/
theorem before {x : Bind α} {f : α → Bind β} {Q : β → Prop} {U : β → ι → Prop}
    (first : Tracks id S x P fun _ _ => False) (second : ∀ a, P a → Tracks id S (f a) Q U) :
    Tracks id S (x >>= f) Q U :=
  first.bind fun a holds => (second a holds).mono (fun _ => .inl) (fun _ holds => holds) fun _ _ => .inr

/-- Symbols of the other sort are not made. -/
theorem other {κ : Type} {number : κ → Nat} {S' : κ → Prop} {x : Bind α}
    (tracks : Tracks id S x P T) : Tracks number S' x P fun _ _ => False :=
  .of_le (fun s => ⟨tracks.le s, tracks.holds s⟩) fun _ _ impossible => impossible.elim

theorem report (file : Option String) (range : TextRange) (m : Message) (args : List String) :
    Tracks id S (Bind.report file range m args) (fun _ => True) fun _ _ => False :=
  .of_le (fun _ => ⟨Nat.le_refl _, trivial⟩) fun _ _ impossible => impossible.elim

theorem get : Tracks id S (MonadState.get : Bind BindState) (fun _ => True) fun _ _ => False :=
  .of_le (fun _ => ⟨Nat.le_refl _, trivial⟩) fun _ _ impossible => impossible.elim

/-- What comes after a report is tracked as if there were none. -/
theorem reported {x : Bind PUnit} {f : PUnit → Bind β} {Q : β → Prop} {U : β → ι → Prop}
    (first : Tracks id S x (fun _ => True) fun _ _ => False)
    (second : ∀ a, Tracks id S (f a) Q U) : Tracks id S (x >>= f) Q U :=
  first.before fun a _ => second a

/-- A computation that makes other symbols. -/
theorem fresh {x : Fresh α} (holds : ∀ n, n ≤ (x n).2 ∧ P (x n).1)
    (within : ∀ n v, T (x n).1 v → S v) : Tracks id S (Bind.fresh x) P T :=
  .of_le (fun s => holds s.nextId) fun s => within s.nextId

/-- A computation that makes one symbol. -/
theorem freshOne {x : Fresh ι} {P : ι → Prop} (holds : ∀ n, P (x n).1)
    (one : ∀ n, id (x n).1 = n ∧ (x n).2 = n + 1) :
    Tracks id S (Bind.fresh x) P fun v w => w = v := by
  intro s
  obtain ⟨same, next⟩ := one s.nextId
  have end_ : (Bind.fresh x s).2.nextId = s.nextId + 1 := next
  refine ⟨⟨by omega, holds s.nextId⟩, fun known census _ => ?_⟩
  rw [end_]
  exact ⟨_, fun _ => .inl, census.insert same, fun _ => .inr⟩

end Tracks

end ScriptLang
