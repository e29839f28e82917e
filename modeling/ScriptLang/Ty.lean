/-! There is a fixed set of types. One of them, `error`, stands for an expression whose
mistake has been reported, so that one mistake is reported once. -/

namespace ScriptLang

inductive Ty where
  | error
  | any
  | void
  | bool
  | int
  | float
  | string
  deriving DecidableEq, Repr, Inhabited

namespace Ty

def named : List Ty := [any, void, bool, int, float, string]

def name : Ty → String
  | error => "?"
  | any => "any"
  | void => "void"
  | bool => "bool"
  | int => "int"
  | float => "float"
  | string => "string"

def ofName? (s : String) : Option Ty := named.find? (·.name = s)

instance : ToString Ty := ⟨name⟩

theorem ofName?_name {t : Ty} (h : t ≠ error) : ofName? t.name = some t := by
  cases t with
  | error => exact absurd rfl h
  | _ => rfl

theorem ofName?_ne_error {s : String} : ofName? s ≠ some error := by
  intro h
  have := List.mem_of_find?_eq_some h
  revert this
  decide

end Ty

end ScriptLang
