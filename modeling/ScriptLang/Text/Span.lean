/-! Positions are byte offsets. Trees store a half-open `TextRange`; messages store
the same stretch as a `TextSpan`, a start and a length. -/

namespace ScriptLang

structure TextRange where
  pos : Nat
  stop : Nat
  deriving DecidableEq, Repr, Inhabited

structure TextSpan where
  start : Nat
  length : Nat
  deriving DecidableEq, Repr, Inhabited

def TextSpan.stop (s : TextSpan) : Nat := s.start + s.length

/-- The span between two offsets, empty when they are the wrong way round. -/
def TextSpan.between (start stop : Nat) : TextSpan := ⟨start, stop - start⟩

def TextRange.toSpan (r : TextRange) : TextSpan := .between r.pos r.stop

/-- The smallest range that holds both. -/
def TextRange.cover (a b : TextRange) : TextRange := ⟨min a.pos b.pos, max a.stop b.stop⟩

def TextRange.Contains (a b : TextRange) : Prop := a.pos ≤ b.pos ∧ b.stop ≤ a.stop

instance : ToString TextRange := ⟨fun r => toString r.pos ++ ".." ++ toString r.stop⟩

instance : ToString TextSpan := ⟨fun s => toString s.start ++ ".." ++ toString s.stop⟩

theorem TextRange.cover_contains_left (a b : TextRange) : (a.cover b).Contains a :=
  ⟨Nat.min_le_left .., Nat.le_max_left ..⟩

theorem TextRange.cover_contains_right (a b : TextRange) : (a.cover b).Contains b :=
  ⟨Nat.min_le_right .., Nat.le_max_right ..⟩

theorem TextRange.Contains.refl (a : TextRange) : a.Contains a := ⟨Nat.le_refl _, Nat.le_refl _⟩

theorem TextRange.Contains.trans {a b c : TextRange} (h : a.Contains b) (k : b.Contains c) :
    a.Contains c :=
  ⟨Nat.le_trans h.1 k.1, Nat.le_trans k.2 h.2⟩

end ScriptLang
