import ScriptLang.Machine.Run

/-! Which code stands at a place of a flat body, and where a label leads that the body
defines once. -/

namespace ScriptLang

def Stmt.definition? : Stmt → Option Nat
  | .label l => some l.id
  | _ => none

/-- The numbers of the labels that code defines, in order. -/
def definitions (code : List Stmt) : List Nat := code.filterMap Stmt.definition?

@[simp] theorem definitions_nil : definitions [] = [] := rfl

@[simp] theorem definitions_append (a b : List Stmt) :
    definitions (a ++ b) = definitions a ++ definitions b := List.filterMap_append

@[simp] theorem definitions_label (l : Label) (code : List Stmt) :
    definitions (.label l :: code) = l.id :: definitions code := rfl

@[simp] theorem definitions_goto (l : Label) (code : List Stmt) :
    definitions (.goto l :: code) = definitions code := rfl

@[simp] theorem definitions_declare (v : Var) (e : Expr) (code : List Stmt) :
    definitions (.declare v e :: code) = definitions code := rfl

@[simp] theorem definitions_expr (e : Expr) (code : List Stmt) :
    definitions (.expr e :: code) = definitions code := rfl

@[simp] theorem definitions_ret (value : Option Expr) (code : List Stmt) :
    definitions (.ret value :: code) = definitions code := rfl

theorem Stmt.defines_iff {l : Label} {s : Stmt} :
    s.defines l = true ↔ s.definition? = some l.id := by
  cases s <;> simp [Stmt.defines, Stmt.definition?]

theorem mem_definitions {code : List Stmt} {id : Nat} :
    id ∈ definitions code ↔ ∃ s ∈ code, s.definition? = some id := List.mem_filterMap

theorem labelPlaceFrom?_eq_none {l : Label} {place : Nat} {code : List Stmt}
    (undefined : l.id ∉ definitions code) : labelPlaceFrom? l place code = none := by
  induction code generalizing place with
  | nil => rfl
  | cons s code ih =>
    have rest : l.id ∉ definitions code := fun member =>
      undefined (mem_definitions.2 (by
        obtain ⟨t, ht, defined⟩ := mem_definitions.1 member
        exact ⟨t, List.mem_cons_of_mem s ht, defined⟩))
    have here : ¬s.defines l = true := fun defines =>
      undefined (mem_definitions.2 ⟨s, List.mem_cons_self, Stmt.defines_iff.1 defines⟩)
    simp [labelPlaceFrom?, ih rest, here]

theorem labelPlaceFrom?_of_last {l : Label} {s : Stmt} (before : List Stmt) {after : List Stmt}
    (place : Nat) (defines : s.defines l = true) (last : l.id ∉ definitions after) :
    labelPlaceFrom? l place (before ++ s :: after) = some (place + before.length) := by
  induction before generalizing place with
  | nil => simp [labelPlaceFrom?, labelPlaceFrom?_eq_none last, defines]
  | cons t before ih =>
    simp only [List.cons_append, labelPlaceFrom?, ih (place + 1), List.length_cons]
    congr 1
    omega

/-- The code stands in the body from `place` on. -/
def CodeAt (body : Body) (place : Nat) (code : List Stmt) : Prop :=
  ∃ before after, body = before ++ code ++ after ∧ before.length = place

namespace CodeAt

variable {body : Body} {place : Nat} {a b code : List Stmt} {s : Stmt}

theorem left (stands : CodeAt body place (a ++ b)) : CodeAt body place a := by
  obtain ⟨before, after, rfl, rfl⟩ := stands
  exact ⟨before, b ++ after, by simp, rfl⟩

theorem right (stands : CodeAt body place (a ++ b)) : CodeAt body (place + a.length) b := by
  obtain ⟨before, after, rfl, rfl⟩ := stands
  exact ⟨before ++ a, after, by simp, by simp⟩

theorem get (stands : CodeAt body place (s :: code)) : body[place]? = some s := by
  obtain ⟨before, after, rfl, rfl⟩ := stands
  simp

theorem tail (stands : CodeAt body place (s :: code)) : CodeAt body (place + 1) code :=
  right (a := [s]) stands

/-- A label of a body that defines no label twice leads to its definition. -/
theorem labelPlace? {l k : Label} (stands : CodeAt body place (.label l :: code))
    (nodup : (definitions body).Nodup) (same : k.id = l.id) :
    body.labelPlace? k = some place := by
  obtain ⟨before, after, rfl, rfl⟩ := stands
  have last : k.id ∉ definitions (code ++ after) := by
    rw [List.append_assoc, definitions_append, List.cons_append, definitions_label] at nodup
    rw [same]
    exact (List.nodup_cons.1 (List.nodup_append.1 nodup).2.1).1
  have defines : (Stmt.label l).defines k = true := by simp [Stmt.defines, same]
  have found := labelPlaceFrom?_of_last before 0 defines last
  rw [Nat.zero_add] at found
  simpa [Body.labelPlace?] using found

end CodeAt

end ScriptLang
