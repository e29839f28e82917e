import ScriptLang.Proofs.BindingConstants
import ScriptLang.Proofs.BindingParts
import ScriptLang.Proofs.BindingUnit

/-! A unit is bound in passes: the heads of its functions, its global statements, its entry, the bodies
of its functions. Each pass starts in the state that the one before it leaves. -/

namespace ScriptLang.Binding

structure MadeFrom (f : Source.Function) (fn : Fn) : Prop where
  name : fn.name = f.name.text
  declaration : fn.declaration = some f.mark.id
  parameters : ∀ v ∈ fn.parameters, ∃ p ∈ f.parameters, v.name = p.name.text

theorem parameters_named {file : Option String} {done : List Var} (ps : List Source.Parameter) :
    Yields (parameters file done ps) fun vs =>
      ∀ v ∈ vs, v ∈ done ∨ ∃ p ∈ ps, v.name = p.name.text := by
  induction ps generalizing done with
  | nil => exact .pure fun v member => .inl member
  | cons p ps ih =>
    have behind {v : Var} : (∃ q ∈ ps, v.name = q.name.text) →
        ∃ q ∈ p :: ps, v.name = q.name.text :=
      fun ⟨q, within, named⟩ => ⟨q, List.mem_cons_of_mem p within, named⟩
    unfold parameters
    refine .after fun t? => ?_
    dsimp only
    split
    · have rest : Yields (parameters file done ps) _ := ih
      exact .after fun _ s v member => (rest s v member).imp_right behind
    · have made : Yields (Bind.fresh (Var.createParameter p.name.text (t?.getD .error) done.length))
          fun v => v.name = p.name.text := .fresh fun _ => rfl
      refine made.bind fun w named s v member => ?_
      have rest : Yields (parameters file (done ++ [w]) ps) _ := ih
      rcases rest s v member with old | later
      · rcases List.mem_append.1 old with before | last
        · exact .inl before
        · exact .inr ⟨p, List.mem_cons_self, List.mem_singleton.1 last ▸ named⟩
      · exact .inr (behind later)

theorem declareFn_makes {file : Option String} {scope : Scope} (f : Source.Function) :
    Yields (declareFn file scope f) fun r => MadeFrom f r.1 := by
  rw [declareFn_eq]
  refine (parameters_named f.parameters).bind fun ps named => .after fun returns => ?_
  have parameters : ∀ v ∈ ps, ∃ p ∈ f.parameters, v.name = p.name.text :=
    fun v member => (named v member).resolve_left List.not_mem_nil
  refine Yields.bind (P := MadeFrom f) (.fresh fun _ => ⟨rfl, rfl, parameters⟩) fun fn made => ?_
  cases scope.declare? f.name.text (.fn fn) with
  | none => exact .after fun _ => .pure made
  | some scope' => exact .pure made

theorem declareFns_make {file : Option String} {scope : Scope} (fs : List Source.Function) :
    Yields (declareFns file scope fs) fun r =>
      r.1.map Prod.snd = fs ∧ ∀ p ∈ r.1, MadeFrom p.2 p.1 := by
  induction fs generalizing scope with
  | nil => exact .pure ⟨rfl, List.forall_mem_nil _⟩
  | cons f fs ih =>
    refine (declareFn_makes f).bind fun r made => ?_
    refine ih.bind fun rest known => ?_
    exact .pure ⟨congrArg (List.cons f) known.1, List.forall_mem_cons.2 ⟨made, known.2⟩⟩

section

variable (scriptMode : Bool) (file : Option String) (history : List Declarations)
  (u : Source.Unit) (next : Nat)

def unitContext : BindContext :=
  { file := file <|> u.file, scriptMode, function := none, loops := [] }

/-- The scope behind the builtins and the units of the history. -/
def unitScope : Scope := (historyScope (rootScope next).1 history).push

def headsPass : (List (Fn × Source.Function) × Scope) × BindState :=
  declareFns (file <|> u.file) (unitScope history next) u.functions ⟨next + 5, .empty⟩

def globalsPass : (Body × Scope) × BindState :=
  let heads := headsPass file history u next
  globals (unitContext scriptMode file u) heads.1.2 u.statements heads.2

def entryPass : Option Fn × BindState :=
  let heads := headsPass file history u next
  let statements := globalsPass scriptMode file history u next
  entryFn? (unitContext scriptMode file u) statements.1.2 heads.1.1 (!statements.1.1.isEmpty)
    statements.2

def bodiesPass : List (Fn × Body) × BindState :=
  functionBodies (unitContext scriptMode file u)
    (globalsPass scriptMode file history u next).1.2 (headsPass file history u next).1.1
    (entryPass scriptMode file history u next).2

end

variable {scriptMode : Bool} {file : Option String} {history : List Declarations}
  {u : Source.Unit} {next : Nat}

/-- Where the last pass has reported no error, no pass has. -/
theorem silent_passes (silent : (bodiesPass scriptMode file history u next).2.Silent) :
    (headsPass file history u next).2.Silent ∧
      (globalsPass scriptMode file history u next).2.Silent ∧
      (entryPass scriptMode file history u next).2.Silent := by
  have entry : (entryPass scriptMode file history u next).2.Silent :=
    (functionBodies_typed False.elim (headsPass file history u next).1.1 False.elim _ silent).1
  have statements : (globalsPass scriptMode file history u next).2.Silent :=
    (entryFn?_plain False.elim _ entry).1
  have heads : (headsPass file history u next).2.Silent :=
    (globals_typed False.elim u.statements _ statements).1
  exact ⟨heads, statements, entry⟩

theorem headsPass_declared : FnsDeclared (unitScope history next)
    ((headsPass file history u next).1.1.map Prod.fst) (headsPass file history u next).1.2 :=
  (declareFns_tracks (S := fun _ => True) u.functions).holds ⟨next + 5, .empty⟩

theorem globalsPass_fns : (globalsPass scriptMode file history u next).1.2.fns =
    (headsPass file history u next).1.2.fns :=
  ((globals_tracks (headsPass file history u next).1.2.holds_anything u.statements).holds
    (headsPass file history u next).2).scope.same

/-- The functions in scope are those that the unit declares. -/
theorem globalsPass_among : ∀ f ∈ (globalsPass scriptMode file history u next).1.2.fns,
    f ∈ (headsPass file history u next).1.1.map Prod.fst := by
  rw [globalsPass_fns]
  exact fun f member => (headsPass_declared.among f member).resolve_left List.not_mem_nil

end ScriptLang.Binding
