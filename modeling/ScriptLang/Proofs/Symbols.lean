import ScriptLang.Binding.Unit

/-! What holds of every symbol that a scope knows holds of what a name means there. It is
kept by every way to make a scope from another one. -/

namespace ScriptLang

namespace OrderedMap

variable {κ α : Type}

variable [DecidableEq κ]

theorem mem_values_of_get? {m : OrderedMap κ α} {k : κ} {v : α} (given : m.get? k = some v) :
    v ∈ m.values := by
  obtain ⟨i, _, found⟩ := Option.bind_eq_some_iff.1 given
  obtain ⟨entry, at_i, rfl⟩ := Option.map_eq_some_iff.1 found
  exact List.mem_map_of_mem (List.mem_of_getElem? at_i)

theorem mem_values_insert {m : OrderedMap κ α} {k : κ} {v w : α}
    (member : w ∈ (m.insert k v).values) : w = v ∨ w ∈ m.values := by
  unfold insert at member
  split at member
  · obtain ⟨entry, within, rfl⟩ := List.mem_map.1 member
    rcases List.mem_or_eq_of_mem_set within with old | rfl
    · exact .inr (List.mem_map_of_mem old)
    · exact .inl rfl
  · obtain ⟨entry, within, rfl⟩ := List.mem_map.1 member
    rcases List.mem_append.1 within with old | new
    · exact .inr (List.mem_map_of_mem old)
    · exact .inl (congrArg Prod.snd (List.mem_singleton.1 new))

theorem entries_insert_of_new {m : OrderedMap κ α} {k : κ} {v : α} (new : m.contains k = false) :
    (m.insert k v).entries = m.entries ++ [(k, v)] := by
  unfold insert
  split
  next i found => simp [contains, found] at new
  next => rfl

theorem values_insert_of_new {m : OrderedMap κ α} {k : κ} {v : α} (new : m.contains k = false) :
    (m.insert k v).values = m.values ++ [v] := by
  simp [values, entries_insert_of_new new]

end OrderedMap

namespace Scope

def Holds (P : Symbol → Prop) (scope : Scope) : Prop :=
  ∀ m ∈ scope.inner :: scope.outer, ∀ symbol ∈ m.values, P symbol

namespace Holds

variable {P Q : Symbol → Prop} {scope : Scope}

theorem mono (holds : scope.Holds P) (weaker : ∀ symbol, P symbol → Q symbol) : scope.Holds Q :=
  fun m member symbol within => weaker symbol (holds m member symbol within)

theorem lookup (holds : scope.Holds P) {name : String} {symbol : Symbol}
    (found : scope.lookup? name = some symbol) : P symbol := by
  obtain ⟨m, member, given⟩ := List.exists_of_findSome?_eq_some found
  exact holds m member symbol (OrderedMap.mem_values_of_get? given)

theorem root : Scope.root.Holds P := by
  intro m member symbol within
  obtain rfl := List.mem_singleton.1 member
  contradiction

theorem push (holds : scope.Holds P) : scope.push.Holds P := by
  intro m member symbol within
  rcases List.mem_cons.1 member with rfl | member
  · contradiction
  · exact holds m member symbol within

theorem replace (holds : scope.Holds P) {name : String} {symbol : Symbol} (new : P symbol) :
    (scope.replace name symbol).Holds P := by
  intro m member other within
  rcases List.mem_cons.1 member with rfl | member
  · rcases OrderedMap.mem_values_insert within with rfl | within
    · exact new
    · exact holds scope.inner List.mem_cons_self other within
  · exact holds m (List.mem_cons_of_mem _ member) other within

theorem declare {scope' : Scope} (holds : scope.Holds P) {name : String} {symbol : Symbol}
    (new : P symbol) (declared : scope.declare? name symbol = some scope') : scope'.Holds P := by
  unfold declare? at declared
  split at declared
  · contradiction
  · obtain rfl := Option.some.inj declared
    exact holds.replace new

theorem vars (holds : scope.Holds P) : ∀ v ∈ scope.vars, P (.var v) := by
  intro v member
  obtain ⟨symbol, within, isVar⟩ := List.mem_filterMap.1 member
  cases symbol with
  | var w =>
    obtain rfl := Option.some.inj isVar
    exact holds scope.inner List.mem_cons_self _ within
  | fn f => contradiction

theorem fns (holds : scope.Holds P) : ∀ f ∈ scope.fns, P (.fn f) := by
  intro f member
  obtain ⟨symbol, within, isFn⟩ := List.mem_filterMap.1 member
  cases symbol with
  | var v => contradiction
  | fn g =>
    obtain rfl := Option.some.inj isFn
    exact holds scope.inner List.mem_cons_self _ within

/-- Symbols that are declared one after another, each in place of an older one. -/
theorem foldl_replace {α : Type} {name : α → String} {symbol : α → Symbol} {items : List α}
    (holds : scope.Holds P) (new : ∀ a ∈ items, P (symbol a)) :
    (items.foldl (fun s a => s.replace (name a) (symbol a)) scope).Holds P := by
  induction items generalizing scope with
  | nil => exact holds
  | cons a items ih =>
    obtain ⟨first, rest⟩ := List.forall_mem_cons.1 new
    exact ih (holds.replace first) rest

end Holds

/-- Declaring a variable leaves the functions as they are. -/
theorem fns_declare {scope scope' : Scope} {name : String} {v : Var}
    (declared : scope.declare? name (.var v) = some scope') : scope'.fns = scope.fns := by
  unfold declare? at declared
  split at declared
  next => contradiction
  next new =>
    obtain rfl := Option.some.inj declared
    simp [fns, symbols, replace, OrderedMap.values_insert_of_new (Bool.eq_false_iff.2 new),
      Symbol.fn?]

end Scope

/-- A variable of one set, or a function of another one. -/
def Symbol.In (vars : Var → Prop) (fns : Fn → Prop) : Symbol → Prop
  | .var v => vars v
  | .fn f => fns f

namespace Scope

def HasVar (scope : Scope) (v : Var) : Prop :=
  ∃ m ∈ scope.inner :: scope.outer, Symbol.var v ∈ m.values

theorem hasVar_of_mem_vars {scope : Scope} {v : Var} (member : v ∈ scope.vars) :
    scope.HasVar v := by
  obtain ⟨symbol, within, isVar⟩ := List.mem_filterMap.1 member
  cases symbol with
  | var w =>
    obtain rfl := Option.some.inj isVar
    exact ⟨scope.inner, List.mem_cons_self, within⟩
  | fn f => contradiction

def OnlyFns (F : Fn → Prop) (scope : Scope) : Prop := scope.Holds (Symbol.In (fun _ => True) F)

theorem holds_anything (scope : Scope) : scope.Holds (Symbol.In (fun _ => True) fun _ => True) := by
  intro m _ symbol _
  cases symbol <;> trivial

theorem holds_in_iff {scope : Scope} {S : Var → Prop} {F : Fn → Prop} :
    scope.Holds (Symbol.In S F) ↔ (∀ v, scope.HasVar v → S v) ∧ scope.OnlyFns F := by
  constructor
  · intro holds
    refine ⟨fun v ⟨m, member, within⟩ => holds m member _ within, holds.mono fun symbol isIn => ?_⟩
    cases symbol with
    | var v => trivial
    | fn f => exact isIn
  · rintro ⟨vars, only⟩ m member symbol within
    cases symbol with
    | var v => exact vars v ⟨m, member, within⟩
    | fn f => exact only m member _ within

end Scope

def Declarations.Hold (P : Symbol → Prop) (d : Declarations) : Prop :=
  (∀ v ∈ d.vars, P (.var v)) ∧ ∀ f ∈ d.fns, P (.fn f)

theorem Scope.Holds.history {P : Symbol → Prop} {root : Scope} {history : List Declarations}
    (holds : root.Holds P) (declared : ∀ d ∈ history, d.Hold P) :
    (Binding.historyScope root history).Holds P := by
  have step (units : List Declarations) (scope : Scope) (holds : scope.Holds P)
      (declared : ∀ d ∈ units, d.Hold P) :
      (units.foldl Binding.addDeclarations scope).Holds P := by
    induction units generalizing scope with
    | nil => exact holds
    | cons d units ih =>
      obtain ⟨first, rest⟩ := List.forall_mem_cons.1 declared
      exact ih _ ((holds.foldl_replace first.2).foldl_replace first.1) rest
  exact step history.reverse root.push holds.push fun d member =>
    declared d (List.mem_reverse.1 member)

namespace Binding

/-- Declarations of other names leave it open what a name means. -/
theorem lookup?_foldl_replace {ι : Type} {name : String} {key : ι → String} {symbol : ι → Symbol}
    {items : List ι} {scope : Scope} (others : ∀ i ∈ items, key i ≠ name) :
    (items.foldl (fun s i => s.replace (key i) (symbol i)) scope).lookup? name =
      scope.lookup? name := by
  induction items generalizing scope with
  | nil => rfl
  | cons i items ih =>
    obtain ⟨first, rest⟩ := List.forall_mem_cons.1 others
    rw [List.foldl_cons, ih rest, Scope.lookup?_replace, if_neg (Ne.symm first)]

theorem lookup?_addDeclarations {name : String} {scope : Scope} {d : Declarations}
    (others : (∀ v ∈ d.vars, v.name ≠ name) ∧ ∀ f ∈ d.fns, f.name ≠ name) :
    (addDeclarations scope d).lookup? name = scope.lookup? name :=
  (lookup?_foldl_replace others.1).trans (lookup?_foldl_replace others.2)

end Binding

end ScriptLang
