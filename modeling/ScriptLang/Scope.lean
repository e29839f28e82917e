import ScriptLang.OrderedMap
import ScriptLang.Symbol

/-! A scope holds the symbols declared in it, in order, and the scopes around it. A name
means what the innermost scope that knows it says. -/

namespace ScriptLang

structure Scope where
  /-- The symbols declared here. -/
  inner : OrderedMap String Symbol
  /-- The scopes around this one, the nearest first. -/
  outer : List (OrderedMap String Symbol)
  deriving Inhabited

namespace Scope

def root : Scope := ⟨.empty, []⟩

def push (s : Scope) : Scope := ⟨.empty, s.inner :: s.outer⟩

def parent? (s : Scope) : Option Scope :=
  match s.outer with
  | [] => none
  | inner :: outer => some ⟨inner, outer⟩

def lookupLocal? (s : Scope) (name : String) : Option Symbol := s.inner.get? name

def lookup? (s : Scope) (name : String) : Option Symbol :=
  (s.inner :: s.outer).findSome? (·.get? name)

/-- Declares a name, in place of what it meant in this scope. -/
def replace (s : Scope) (name : String) (symbol : Symbol) : Scope :=
  { s with inner := s.inner.insert name symbol }

def declare? (s : Scope) (name : String) (symbol : Symbol) : Option Scope :=
  if s.inner.contains name then none else some (s.replace name symbol)

def symbols (s : Scope) : List Symbol := s.inner.values

def vars (s : Scope) : List Var := s.symbols.filterMap Symbol.var?

def fns (s : Scope) : List Fn := s.symbols.filterMap Symbol.fn?

@[simp] theorem parent?_push (s : Scope) : s.push.parent? = some s := rfl

@[simp] theorem lookup?_push (s : Scope) (name : String) :
    s.push.lookup? name = s.lookup? name := by
  simp [push, lookup?, List.findSome?_cons]

@[simp] theorem lookupLocal?_replace (s : Scope) (name other : String) (symbol : Symbol) :
    (s.replace name symbol).lookupLocal? other =
      if other = name then some symbol else s.lookupLocal? other := by
  simp [replace, lookupLocal?]

@[simp] theorem lookup?_replace (s : Scope) (name other : String) (symbol : Symbol) :
    (s.replace name symbol).lookup? other =
      if other = name then some symbol else s.lookup? other := by
  by_cases h : other = name <;> simp [replace, lookup?, List.findSome?_cons, h]

end Scope

end ScriptLang
