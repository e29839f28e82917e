/-! An `Interner` gives every distinct text a number, counted from zero in the order in
which the texts were first seen. -/

namespace ScriptLang

structure Interner where
  names : List String
  deriving DecidableEq, Repr, Inhabited

namespace Interner

def empty : Interner := ⟨[]⟩

def size (t : Interner) : Nat := t.names.length

def isEmpty (t : Interner) : Bool := t.names.isEmpty

def find? (t : Interner) (s : String) : Option Nat := t.names.findIdx? (· = s)

/-- The number of a text, a new one if it was not seen before. -/
def intern (t : Interner) (s : String) : Nat × Interner :=
  match t.find? s with
  | some i => (i, t)
  | none => (t.names.length, ⟨t.names ++ [s]⟩)

def resolve? (t : Interner) (i : Nat) : Option String := t.names[i]?

@[simp] theorem resolve?_intern (t : Interner) (s : String) :
    (t.intern s).2.resolve? (t.intern s).1 = some s := by
  unfold intern
  split
  next i h =>
    obtain ⟨hi, hs, _⟩ := List.findIdx?_eq_some_iff_getElem.1 h
    rw [resolve?, List.getElem?_eq_getElem hi]
    simpa using hs
  next => simp [resolve?]

/-- A number that has a text keeps it. -/
theorem resolve?_intern_of_some {t : Interner} {i : Nat} {r : String} (h : t.resolve? i = some r)
    (s : String) : (t.intern s).2.resolve? i = some r := by
  unfold intern
  split
  next => exact h
  next =>
    obtain ⟨hi, _⟩ := List.getElem?_eq_some_iff.1 h
    rw [resolve?, List.getElem?_append_left hi]
    exact h

end Interner

end ScriptLang
