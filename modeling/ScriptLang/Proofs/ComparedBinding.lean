import ScriptLang.Proofs.Silent

/-! `Reports given ds x y R` compares the binding of a tree with that of a form of it with mistakes. If
`x` ends without an error, then it started without one, and `given` leads to this: `y` makes as many
symbols as `x`, reports `ds` and nothing else, and the results are related. `ReportsAt s s'` says it of
the runs that start in these states. -/

namespace ScriptLang

def ReportsAt {α β : Type} (s s' : BindState) (given : Prop) (ds : List Diagnostic) (x : Bind α)
    (y : Bind β) (R : α → β → Prop) : Prop :=
  (x s).2.Silent → s.Silent ∧ (given → s'.nextId = s.nextId →
    (y s').2.nextId = (x s).2.nextId ∧
      (y s').2.diagnostics.items = s'.diagnostics.items ++ ds ∧ R (x s).1 (y s').1)

namespace ReportsAt

variable {α β γ δ : Type} {s s' : BindState} {given : Prop} {ds ds' : List Diagnostic}
  {R : α → β → Prop} {Q : γ → δ → Prop} {x : Bind α} {y : Bind β}

theorem pure {a : α} {b : β} (related : given → R a b) :
    ReportsAt s s' given [] (Pure.pure a) (Pure.pure b) R :=
  fun silent => ⟨silent, fun holds same => ⟨same, (List.append_nil _).symm, related holds⟩⟩

theorem bind {f : α → Bind γ} {g : β → Bind δ} (first : ReportsAt s s' given ds x y R)
    (second : ReportsAt (x s).2 (y s').2 (given ∧ R (x s).1 (y s').1) ds' (f (x s).1) (g (y s').1) Q) :
    ReportsAt s s' given (ds ++ ds') (x >>= f) (y >>= g) Q := by
  intro silent
  obtain ⟨between, rest⟩ := second silent
  obtain ⟨before, head⟩ := first between
  refine ⟨before, fun holds same => ?_⟩
  obtain ⟨ids, items, related⟩ := head holds same
  obtain ⟨ids', items', related'⟩ := rest ⟨holds, related⟩ ids
  refine ⟨ids', ?_, related'⟩
  rw [← List.append_assoc, ← items]
  exact items'

/-- The second computation reports nothing. -/
theorem bindQuiet {f : α → Bind γ} {g : β → Bind δ} (first : ReportsAt s s' given ds x y R)
    (second : ReportsAt (x s).2 (y s').2 (given ∧ R (x s).1 (y s').1) [] (f (x s).1) (g (y s').1) Q) :
    ReportsAt s s' given ds (x >>= f) (y >>= g) Q := by
  have both := first.bind second
  rwa [List.append_nil] at both

/-- The first computation reports nothing. -/
theorem behindQuiet {f : α → Bind γ} {g : β → Bind δ} (first : ReportsAt s s' given [] x y R)
    (second : ReportsAt (x s).2 (y s').2 (given ∧ R (x s).1 (y s').1) ds' (f (x s).1) (g (y s').1) Q) :
    ReportsAt s s' given ds' (x >>= f) (y >>= g) Q := first.bind second

end ReportsAt

def Reports {α β : Type} (given : Prop) (ds : List Diagnostic) (x : Bind α) (y : Bind β)
    (R : α → β → Prop) : Prop :=
  ∀ s s', (x s).2.Silent → s.Silent ∧ (given → s'.nextId = s.nextId →
    (y s').2.nextId = (x s).2.nextId ∧
      (y s').2.diagnostics.items = s'.diagnostics.items ++ ds ∧ R (x s).1 (y s').1)

namespace Reports

variable {α β γ δ : Type} {given : Prop} {ds ds' : List Diagnostic} {R : α → β → Prop}
  {Q : γ → δ → Prop} {x : Bind α} {y : Bind β}

theorem pure {a : α} {b : β} (related : given → R a b) :
    Reports given [] (Pure.pure a) (Pure.pure b) R :=
  fun _ _ => ReportsAt.pure related

theorem bind {f : α → Bind γ} {g : β → Bind δ} (first : Reports given ds x y R)
    (second : ∀ a b, Reports (given ∧ R a b) ds' (f a) (g b) Q) :
    Reports given (ds ++ ds') (x >>= f) (y >>= g) Q :=
  fun s s' => ReportsAt.bind (first s s') (second _ _ _ _)

theorem bindQuiet {f : α → Bind γ} {g : β → Bind δ} (first : Reports given ds x y R)
    (second : ∀ a b, Reports (given ∧ R a b) [] (f a) (g b) Q) :
    Reports given ds (x >>= f) (y >>= g) Q :=
  fun s s' => ReportsAt.bindQuiet (first s s') (second _ _ _ _)

theorem behindQuiet {f : α → Bind γ} {g : β → Bind δ} (first : Reports given [] x y R)
    (second : ∀ a b, Reports (given ∧ R a b) ds' (f a) (g b) Q) :
    Reports given ds' (x >>= f) (y >>= g) Q := first.bind second

theorem mono {other : Prop} {R' : α → β → Prop} (reports : Reports given ds x y R)
    (stronger : other → given) (weaker : ∀ a b, other → R a b → R' a b) :
    Reports other ds x y R' := by
  intro s s' silent
  obtain ⟨before, rest⟩ := reports s s' silent
  refine ⟨before, fun holds same => ?_⟩
  obtain ⟨ids, items, related⟩ := rest (stronger holds) same
  exact ⟨ids, items, weaker _ _ holds related⟩

/-- Cases may be told apart by what is given. -/
theorem of_given {P : α → Prop} (sound : Sound False x P)
    (known : given → Reports True ds x y R) : Reports given ds x y R :=
  fun s s' silent => ⟨(sound s silent).1, fun holds => (known holds s s' silent).2 trivial⟩

theorem fresh {x : Fresh α} {y : Fresh β}
    (related : ∀ n, given → (y n).2 = (x n).2 ∧ R (x n).1 (y n).1) :
    Reports given [] (Bind.fresh x) (Bind.fresh y) R := by
  intro s s' silent
  refine ⟨silent, fun holds same => ?_⟩
  obtain ⟨ids, results⟩ := related s.nextId holds
  show (y s'.nextId).2 = (x s.nextId).2 ∧ _ ∧ R (x s.nextId).1 (y s'.nextId).1
  rw [same]
  exact ⟨ids, (List.append_nil _).symm, results⟩

/-- The first results are the same in both. -/
theorem behindSame {x y : Bind α} {f : α → Bind γ} {g : α → Bind δ}
    (first : Reports given [] x y Eq) (second : ∀ a, Reports given ds (f a) (g a) Q) :
    Reports given ds (x >>= f) (y >>= g) Q := by
  intro s s' silent
  obtain ⟨between, rest⟩ := second (x s).1 (x s).2 (y s').2 silent
  obtain ⟨before, head⟩ := first s s' between
  refine ⟨before, fun holds same => ?_⟩
  obtain ⟨ids, items, related⟩ := head holds same
  obtain ⟨ids', items', related'⟩ := rest holds ids
  rw [List.append_nil] at items
  show (g (y s').1 (y s').2).2.nextId = _ ∧ (g (y s').1 (y s').2).2.diagnostics.items = _ ∧
    Q _ (g (y s').1 (y s').2).1
  rw [← related, ← items]
  exact ⟨ids', items', related'⟩

/-- The new symbols are the same in both. -/
theorem freshSame (x : Fresh α) {f : α → Bind γ} {g : α → Bind δ}
    (second : ∀ a, Reports given ds (f a) (g a) Q) :
    Reports given ds (Bind.fresh x >>= f) (Bind.fresh x >>= g) Q :=
  (fresh fun _ _ => ⟨rfl, rfl⟩).behindSame second

/-- Nothing is claimed if the first binding reports an error. -/
theorem of_reported {file : Option String} {range : TextRange} {m : Message} {args : List String}
    {f : PUnit → Bind α} (isError : m.category = .error)
    (later : ∀ a, Sound False (f a) fun _ => True) :
    Reports given ds (Bind.report file range m args >>= f) y R := by
  intro s s' silent
  have never : Sound True (Bind.report file range m args >>= f) fun _ => False :=
    .reported isError later
  exact ((never s silent).2 trivial).elim

theorem of_refused {file : Option String} {range : TextRange} {m : Message} {args : List String}
    {a : α} (isError : m.category = .error) :
    Reports given ds (do
      Bind.report file range m args
      return a) y R := of_reported isError fun _ => .pure fun _ => trivial

/-- The second binding reports the one name that is misspelt, and then as much as the first one. -/
theorem report {file : Option String} {range : TextRange} {m : Message} {args : List String}
    {b : β} (quiet : Reports given [] x (Pure.pure b) R) :
    Reports given [.ofMessage m args file (some range.toSpan)] x (do
      Bind.report file range m args
      return b) R := by
  intro s s' silent
  obtain ⟨before, rest⟩ := quiet s s' silent
  refine ⟨before, fun holds same => ?_⟩
  obtain ⟨ids, _, related⟩ := rest holds same
  exact ⟨ids, rfl, related⟩

end Reports

theorem Reports.at {α β : Type} {given : Prop} {ds : List Diagnostic} {x : Bind α} {y : Bind β}
    {R : α → β → Prop} (reports : Reports given ds x y R) (s s' : BindState) :
    ReportsAt s s' given ds x y R := reports s s'

end ScriptLang
