import Mathlib.Logic.Relation
import ScriptLang.Proofs.Code
import ScriptLang.Proofs.Mentions
import ScriptLang.Proofs.Typing

/-! What flat code needs to run without defects. Its statements are well typed and mention what
is known, its jumps lead to labels that it defines, and where it has to give a value it
never runs past its end. -/

namespace ScriptLang

structure Stmt.Safe (known : Var → Prop) (callable : Fn → Prop) (returns : Ty) (s : Stmt) :
    Prop where
  flat : s.isFlat = true
  typed : s.WellTyped (fun _ => True) (some returns)
  vars : ∀ v ∈ s.vars, known v
  calls : ∀ f ∈ s.calls, callable f

namespace Stmt

def targets : Stmt → List Label
  | goto l | gotoIf l _ _ => [l]
  | _ => []

/-- Behind the statement, which stands at `place`, the one at `target` may be next. -/
def LeadsTo (body : Body) (place target : Nat) : Stmt → Prop
  | goto l => body.labelPlace? l = some target
  | gotoIf l _ _ => body.labelPlace? l = some target ∨ target = place + 1
  | ret _ => False
  | _ => target = place + 1

theorem Safe.mono {known more : Var → Prop} {callable others : Fn → Prop} {returns : Ty} {s : Stmt}
    (safe : s.Safe known callable returns) (vars : ∀ v, known v → more v)
    (calls : ∀ f, callable f → others f) : s.Safe more others returns :=
  ⟨safe.flat, safe.typed, fun v member => vars v (safe.vars v member),
    fun f member => calls f (safe.calls f member)⟩

end Stmt

namespace Body

def LeadsTo (body : Body) (place target : Nat) : Prop :=
  ∃ s, body[place]? = some s ∧ s.LeadsTo body place target

/-- No way through the body runs past its end. -/
def StaysInside (body : Body) : Prop :=
  ∀ place, Relation.ReflTransGen body.LeadsTo 0 place → place < body.length

structure Safe (known : Var → Prop) (callable : Fn → Prop) (returns : Ty) (body : Body) :
    Prop where
  statements : ∀ s ∈ body, s.Safe known callable returns
  targets : ∀ s ∈ body, ∀ l ∈ s.targets, l.id ∈ definitions body
  inside : returns ≠ .void → body.StaysInside

theorem Safe.mono {known more : Var → Prop} {callable others : Fn → Prop} {returns : Ty}
    {body : Body} (safe : body.Safe known callable returns) (vars : ∀ v, known v → more v)
    (calls : ∀ f, callable f → others f) : body.Safe more others returns :=
  ⟨fun s member => (safe.statements s member).mono vars calls, safe.targets, safe.inside⟩

/-- Places that lead only to one another, among them the start. -/
theorem StaysInside.of_closed {body : Body} (live : Nat → Prop) (start : live 0)
    (inside : ∀ place, live place → place < body.length)
    (closed : ∀ place target, live place → body.LeadsTo place target → live target) :
    body.StaysInside := by
  intro place path
  have isLive : live place := by
    induction path with
    | refl => exact start
    | tail _ leads ih => exact closed _ _ ih leads
  exact inside place isLive

end Body

theorem labelPlaceFrom?_lt {l : Label} {place found : Nat} {code : List Stmt}
    (given : labelPlaceFrom? l place code = some found) : found < place + code.length := by
  induction code generalizing place with
  | nil => contradiction
  | cons s code ih =>
    simp only [labelPlaceFrom?] at given
    split at given
    next later rest =>
      obtain rfl := Option.some.inj given
      have := ih rest
      simp only [List.length_cons]
      omega
    next =>
      split at given
      next =>
        obtain rfl := Option.some.inj given
        simp
      next => contradiction

theorem Body.labelPlace?_lt {body : Body} {l : Label} {place : Nat}
    (given : body.labelPlace? l = some place) : place < body.length := by
  have := labelPlaceFrom?_lt given
  omega

/-- A label that a body defines has a place in it. -/
theorem Body.labelPlace?_of_mem {body : Body} {l : Label} (defined : l.id ∈ definitions body) :
    ∃ place, body.labelPlace? l = some place := by
  have found (code : List Stmt) (place : Nat) (defined : l.id ∈ definitions code) :
      ∃ found, labelPlaceFrom? l place code = some found := by
    induction code generalizing place with
    | nil => contradiction
    | cons s code ih =>
      by_cases later : l.id ∈ definitions code
      · obtain ⟨found, given⟩ := ih (place + 1) later
        exact ⟨found, by simp [labelPlaceFrom?, given]⟩
      · obtain ⟨t, member, isLabel⟩ := mem_definitions.1 defined
        have here : t = s := by
          rcases List.mem_cons.1 member with same | within
          · exact same
          · exact absurd (mem_definitions.2 ⟨t, within, isLabel⟩) later
        have defines : s.defines l = true := Stmt.defines_iff.2 (here ▸ isLabel)
        exact ⟨place, by simp [labelPlaceFrom?, labelPlaceFrom?_eq_none later, defines]⟩
  exact found body 0 defined

/-- A body whose last statement leads nowhere behind it. -/
theorem Body.StaysInside.of_getLast {body : Body} {last : Stmt} (given : body.getLast? = some last)
    (terminates : last.isTerminator = true) : body.StaysInside := by
  have notEmpty : body ≠ [] := by
    rintro rfl
    contradiction
  refine .of_closed (fun place => place < body.length) (List.length_pos_iff.2 notEmpty)
    (fun _ => id) fun place target inside leads => ?_
  obtain ⟨s, get, leads⟩ := leads
  have behind (isLast : s.isTerminator = false) : place + 1 < body.length := by
    by_cases atEnd : place = body.length - 1
    · rw [List.getLast?_eq_getElem?, ← atEnd, get] at given
      obtain rfl := Option.some.inj given
      rw [isLast] at terminates
      contradiction
    · omega
  cases s with
  | goto l => exact labelPlace?_lt leads
  | ret value => exact leads.elim
  | gotoIf l c value =>
    rcases leads with leads | rfl
    · exact labelPlace?_lt leads
    · exact behind rfl
  | _ =>
    obtain rfl := leads
    exact behind rfl

end ScriptLang
