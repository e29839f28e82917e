import ScriptLang.Proofs.JoinedUnits

/-! When a unit is compiled, the counter from which its symbols take their numbers may have any value.
From another one, the unit is bound, checked and lowered to the same under other numbers, and the
same is reported of it. This holds of units with errors as well. -/

namespace ScriptLang

namespace Renaming

/-- All numbers from `n` on become those from `n'` on, in the same order. So do those of
builtins. -/
structure Carries (ρ : Renaming) (n n' : Nat) : Prop where
  own : ∀ i, ρ.own (n + i) = n' + i
  builtin : ∀ i, ρ.builtin (n + i) = n' + i

variable {ρ : Renaming} {n n' : Nat}

theorem Carries.shifts (carries : ρ.Carries n n') (k : Nat) : ρ.Shifts n n' k :=
  fun i _ => carries.own i

theorem Carries.add (carries : ρ.Carries n n') (k : Nat) : ρ.Carries (n + k) (n' + k) := by
  refine ⟨fun i => ?_, fun i => ?_⟩
  · rw [Nat.add_assoc, Nat.add_assoc]
    exact carries.own (k + i)
  · rw [Nat.add_assoc, Nat.add_assoc]
    exact carries.builtin (k + i)

theorem exists_carries (le : n ≤ n') : ∃ ρ : Renaming, ρ.Carries n n' := by
  let carry (i : Nat) : Nat := if i < n then i else i + (n' - n)
  have injective : Function.Injective carry := by
    intro i j same
    dsimp only [carry] at same
    split at same <;> split at same <;> omega
  have carries (i : Nat) : carry (n + i) = n' + i := by
    dsimp only [carry]
    rw [if_neg (by omega)]
    omega
  exact ⟨⟨carry, carry, injective⟩, carries, carries⟩

end Renaming

section

variable (ρ : Renaming)

def Declarations.rename (d : Declarations) : Declarations :=
  { d with
    entry := d.entry.map (Fn.rename ρ)
    fns := d.fns.map (Fn.rename ρ)
    vars := d.vars.map (Var.rename ρ) }

def BoundUnit.rename (bound : BoundUnit) : BoundUnit :=
  ⟨bound.declarations.rename ρ, Bodies.rename ρ bound.bodies⟩

end

def Scope.InnerRenamed (ρ : Renaming) (a b : Scope) : Prop :=
  b.inner.entries = a.inner.entries.map (Prod.map id (Symbol.rename ρ))

namespace Scope.InnerRenamed

variable {ρ : Renaming} {a b : Scope}

theorem fns (renamed : a.InnerRenamed ρ b) : b.fns = a.fns.map (Fn.rename ρ) := by
  have one (symbol : Symbol) : (symbol.rename ρ).fn? = symbol.fn?.map (Fn.rename ρ) := by
    cases symbol <;> rfl
  have values : b.symbols = a.symbols.map (Symbol.rename ρ) := by
    unfold symbols OrderedMap.values
    rw [renamed, List.map_map, List.map_map]
    rfl
  rw [Scope.fns, Scope.fns, values, List.filterMap_map, List.map_filterMap]
  exact List.filterMap_congr fun symbol _ => one symbol

/-- A name that is new in both scopes is declared in both. -/
theorem declare (renamed : a.InnerRenamed ρ b) (name : String) (symbol : Symbol) :
    ((a.declare? name symbol).getD a).InnerRenamed ρ
      ((b.declare? name (symbol.rename ρ)).getD b) := by
  have keys : b.inner.keys = a.inner.keys := by
    unfold OrderedMap.keys
    rw [renamed, List.map_map]
    rfl
  have contains : b.inner.contains name = a.inner.contains name := by
    rw [Bool.eq_iff_iff, OrderedMap.contains_iff, OrderedMap.contains_iff, keys]
  unfold declare?
  rw [contains]
  cases known : a.inner.contains name with
  | true => exact renamed
  | false =>
    have entries (scope : Scope) (s : Symbol) (new : scope.inner.contains name = false) :
        (scope.replace name s).inner.entries = scope.inner.entries ++ [(name, s)] :=
      OrderedMap.entries_insert_of_new new
    show (b.replace name _).inner.entries = (a.replace name symbol).inner.entries.map _
    rw [entries b _ (contains.trans known), entries a _ known, renamed, List.map_append]
    rfl

end Scope.InnerRenamed

namespace Binding

variable {ρ : Renaming} {file : Option String} {among declares : String → Prop} {a b : Scope}

theorem addDeclarations_renamed (renamed : a.Renamed ρ among declares b) (d : Declarations) :
    (addDeclarations a d).Renamed ρ among declares (addDeclarations b (d.rename ρ)) := by
  unfold addDeclarations Declarations.rename
  dsimp only
  rw [List.foldl_map, List.foldl_map]
  refine List.foldl_rel ?_ fun v _ s t renamed => renamed.replace v.name (.var v)
  exact List.foldl_rel renamed fun f _ s t renamed => renamed.replace f.name (.fn f)

/-- Behind a history under other numbers, names mean what they mean behind the history, under these
numbers. -/
theorem unitScope_renamed {n n' : Nat} (carries : ρ.Carries n n') (history : List Declarations) :
    (unitScope history n).Renamed ρ (fun _ => True) (fun _ => True)
      (unitScope (history.map (Declarations.rename ρ)) n') := by
  have root : (rootScope n).1.Renamed ρ (fun _ => True) (fun _ => False) (rootScope n').1 :=
    ⟨fun name _ => rootScope_renamed (fun i _ => carries.builtin i) name, fun _ => False.elim⟩
  unfold unitScope historyScope
  rw [← List.map_reverse, List.foldl_map]
  have behind := List.foldl_rel (l := history.reverse) (root.push fun _ => True)
    fun d _ s t renamed => addDeclarations_renamed renamed d
  exact behind.push _

/-- A scope in which functions are declared in a row. The first one of a name stays. -/
def declareAll (scope : Scope) (declared : List (Fn × Source.Function)) : Scope :=
  declared.foldl (fun s p => (s.declare? p.2.name.text (.fn p.1)).getD s) scope

theorem declareFns_scope {scope : Scope} (fs : List Source.Function) :
    Yields (declareFns file scope fs) fun r => r.2 = declareAll scope r.1 := by
  induction fs generalizing scope with
  | nil => exact .pure rfl
  | cons f fs ih =>
    have added (fn : Fn) : Yields (addFn file scope f fn) fun r =>
        r.1 = fn ∧ r.2 = (scope.declare? f.name.text (.fn fn)).getD scope := by
      unfold addFn
      cases scope.declare? f.name.text (.fn fn) with
      | none => exact .after fun _ => .pure ⟨rfl, rfl⟩
      | some scope' => exact .pure ⟨rfl, rfl⟩
    unfold declareFns
    rw [declareFn_eq_head, bind_assoc]
    refine .after fun fn => (added fn).bind fun r first => ih.bind fun r' rest => .pure ?_
    rw [rest, first.2, first.1]
    rfl

theorem declareAll_renamed (renamed : a.InnerRenamed ρ b) (declared : List (Fn × Source.Function)) :
    (declareAll a declared).InnerRenamed ρ
      (declareAll b (declared.map (Prod.map (Fn.rename ρ) id))) := by
  unfold declareAll
  rw [List.foldl_map]
  exact List.foldl_rel renamed fun p _ s t renamed => renamed.declare p.2.name.text (.fn p.1)

end Binding

/-- From numbers that are carried to one another, both computations have come to such numbers, with
the same reports. -/
structure Bind.Carried {α β : Type} (ρ : Renaming) (R : α → β → Prop) (r : α × BindState)
    (r' : β × BindState) : Prop where
  numbers : ρ.Carries r.2.nextId r'.2.nextId
  reports : r'.2.diagnostics = r.2.diagnostics
  related : R r.1 r'.1

theorem Bind.Parallel.carried {α β : Type} {ρ : Renaming} {same : Prop} {R : α → β → Prop}
    {x : Bind α} {y : Bind β} {k : Nat} (s s' : BindState)
    (parallel : Parallel same s.nextId s'.nextId k R x y) (isSame : same)
    (numbers : ρ.Carries s.nextId s'.nextId) (reports : s'.diagnostics = s.diagnostics) :
    Carried ρ R (x s) (y s') := by
  obtain ⟨count, count', keep, related⟩ := parallel s.diagnostics s'.diagnostics
  refine ⟨?_, (keep.reports isSame reports.symm).symm, related⟩
  have numbers' := numbers.add k
  rw [← count, ← count'] at numbers'
  exact numbers'

namespace Binding

variable {κ : Relabelling} {ρ : Renaming} {scriptMode : Bool} {file : Option String}
  {history : List Declarations} {u : Source.Unit} {n n' : Nat}

theorem headsPass_carried (carries : ρ.Carries n n') :
    Bind.Carried ρ
      (Scope.RenamedBehind ρ (fun _ => True) (fun _ => True) (unitScope history n)
        (unitScope (history.map (Declarations.rename ρ)) n')
        (List.map (Prod.map (Fn.rename ρ) id)))
      (headsPass file history u n) (headsPass file (history.map (Declarations.rename ρ)) u n') := by
  have numbers := carries.add 5
  exact Bind.Parallel.carried ⟨n + 5, .empty⟩ ⟨n' + 5, .empty⟩
    (declareFns_renames (unitScope_renamed carries history) u.functions (fun _ _ => trivial)
      (numbers.shifts _)) rfl numbers rfl

theorem globalsPass_carried (carries : ρ.Carries n n') :
    Bind.Carried ρ
      (Scope.RenamedBehind ρ (fun _ => True) (fun _ => True) (headsPass file history u n).1.2
        (headsPass file (history.map (Declarations.rename ρ)) u n').1.2 (List.map (Stmt.rename ρ)))
      (globalsPass scriptMode file history u n)
      (globalsPass scriptMode file (history.map (Declarations.rename ρ)) u n') := by
  have heads := @headsPass_carried ρ file history u n n' carries
  exact Bind.Parallel.carried (headsPass file history u n).2
    (headsPass file (history.map (Declarations.rename ρ)) u n').2
    (globals_renames renamed_unitContext heads.related.scope u.statements (fun _ _ => trivial)
      (fun _ _ _ _ => trivial) (heads.numbers.shifts _)) rfl heads.numbers heads.reports

/-- Declared functions are found by their numbers, whatever these are. -/
theorem find?_renamed {declared : List (Fn × Source.Function)} {f : Fn}
    (own : ∀ p ∈ declared, p.1.builtin = none) (ownF : f.builtin = none) :
    (declared.map (Prod.map (Fn.rename ρ) id)).find? (·.1.id = (f.rename ρ).id) =
      (declared.find? (·.1.id = f.id)).map (Prod.map (Fn.rename ρ) id) := by
  rw [List.find?_map]
  refine congrArg (Option.map _) (List.find?_congr fun p member => ?_)
  simp [Fn.id_rename (own p member), Fn.id_rename ownF]

theorem entryPass_carried (carries : ρ.Carries n n') :
    Bind.Carried ρ (Option.map (Fn.rename ρ) · = ·) (entryPass scriptMode file history u n)
      (entryPass scriptMode file (history.map (Declarations.rename ρ)) u n') := by
  have heads := @headsPass_carried ρ file history u n n' carries
  have statements := @globalsPass_carried ρ scriptMode file history u n n' carries
  have hasGlobals :
      (globalsPass scriptMode file (history.map (Declarations.rename ρ)) u n').1.1.isEmpty =
        (globalsPass scriptMode file history u n).1.1.isEmpty := by
    rw [← statements.related.item, List.isEmpty_map]
  have found (main : Fn) (isMain : ((globalsPass scriptMode file history u n).1.2.lookupLocal?
        mainName).bind Symbol.fn? = some main) :
      ((headsPass file history u n).1.1.map (Prod.map (Fn.rename ρ) id)).find?
          (·.1.id = (main.rename ρ).id) =
        ((headsPass file history u n).1.1.find? (·.1.id = main.id)).map _ :=
    find?_renamed headsPass_own
      (headsPass_declared.shape main (globalsPass_among main (mem_fns_of_lookupLocal isMain))).1
  unfold entryPass
  dsimp only
  rw [hasGlobals, ← heads.related.item]
  refine Bind.Parallel.carried (globalsPass scriptMode file history u n).2
    (globalsPass scriptMode file (history.map (Declarations.rename ρ)) u n').2
    (entryFn?_renames renamed_unitContext statements.related.scope trivial (fun main isMain => ?_)
      (fun _ => ⟨rfl, fun main isMain => ?_⟩) (statements.numbers.shifts _)) trivial
    statements.numbers statements.reports
  · rw [found main isMain, Option.isSome_map]
  · rw [found main isMain, Option.map_map]
    rfl

theorem bodiesPass_carried (carries : ρ.Carries n n') :
    Bind.Carried ρ (Bodies.rename ρ · = ·) (bodiesPass scriptMode file history u n)
      (bodiesPass scriptMode file (history.map (Declarations.rename ρ)) u n') := by
  have heads := @headsPass_carried ρ file history u n n' carries
  have statements := @globalsPass_carried ρ scriptMode file history u n n' carries
  have entry := @entryPass_carried ρ scriptMode file history u n n' carries
  unfold bodiesPass
  rw [← heads.related.item]
  exact Bind.Parallel.carried (entryPass scriptMode file history u n).2
    (entryPass scriptMode file (history.map (Declarations.rename ρ)) u n').2
    (functionBodies_renames renamed_unitContext statements.related.scope
      (headsPass file history u n).1.1 headsPass_own (fun _ _ _ _ => trivial)
      (entry.numbers.shifts _)) rfl entry.numbers entry.reports

theorem addEntry_rename {bodies : Bodies} {entry : Option Fn} {statements : Body}
    (own : ∀ p ∈ bodies, p.1.builtin = none) (ownEntry : ∀ e, entry = some e → e.builtin = none) :
    addEntry (Bodies.rename κ bodies) (entry.map (Fn.rename κ)) (statements.rename κ) =
      Bodies.rename κ (addEntry bodies entry statements) := by
  cases entry with
  | none => rfl
  | some e =>
    have isOld : (Bodies.rename κ bodies).any (·.1.id = (e.rename κ).id) =
        bodies.any (·.1.id = e.id) := by
      rw [Bodies.rename, List.any_map, Bool.eq_iff_iff, List.any_eq_true, List.any_eq_true]
      refine exists_congr fun p => and_congr_right fun member => ?_
      simp [Fn.id_rename (own p member), Fn.id_rename (ownEntry e rfl)]
    rw [Option.map_some, addEntry, addEntry, isOld]
    split
    · rfl
    · simp [Bodies.rename]

end Binding

section

variable {ρ : Renaming} {scriptMode : Bool} {file : Option String} {history : List Declarations}
  {u : Source.Unit} {n n' : Nat}

open Binding in
theorem bindUnit_declarations : (bindUnit scriptMode file history u n).1.declarations =
    { diagnostics := (bodiesPass scriptMode file history u n).2.diagnostics
      entry := (entryPass scriptMode file history u n).1
      fns := (globalsPass scriptMode file history u n).1.2.fns
      vars := (globalsPass scriptMode file history u n).1.2.vars } := rfl

open Binding in
/-- A unit is bound from another start to the same under other numbers. -/
theorem bindUnit_carried (carries : ρ.Carries n n') :
    (bindUnit scriptMode file (history.map (Declarations.rename ρ)) u n').1 =
        (bindUnit scriptMode file history u n).1.rename ρ ∧
      ρ.Carries (bindUnit scriptMode file history u n).2
        (bindUnit scriptMode file (history.map (Declarations.rename ρ)) u n').2 := by
  have heads := @headsPass_carried ρ file history u n n' carries
  have statements := @globalsPass_carried ρ scriptMode file history u n n' carries
  have entry := @entryPass_carried ρ scriptMode file history u n n' carries
  have bodies := @bodiesPass_carried ρ scriptMode file history u n n' carries
  refine ⟨?_, bodies.numbers⟩
  have vars : (globalsPass scriptMode file (history.map (Declarations.rename ρ)) u n').1.2.vars =
      (globalsPass scriptMode file history u n).1.2.vars.map (Var.rename ρ) := by
    obtain ⟨new, vars, vars'⟩ :=
      (heads.related.trans statements.related (rfl : id () = ())).vars
    exact vars'.trans (congrArg (List.map (Var.rename ρ)) vars).symm
  have scopes : (headsPass file history u n).1.2.InnerRenamed ρ
      (headsPass file (history.map (Declarations.rename ρ)) u n').1.2 := by
    have scope (history : List Declarations) (n : Nat) : (headsPass file history u n).1.2 =
        declareAll (unitScope history n) (headsPass file history u n).1.1 :=
      declareFns_scope u.functions _
    have start : (unitScope history n).InnerRenamed ρ
      (unitScope (history.map (Declarations.rename ρ)) n') := rfl
    rw [scope, scope, ← heads.related.item]
    exact declareAll_renamed start _
  have fns : (globalsPass scriptMode file (history.map (Declarations.rename ρ)) u n').1.2.fns =
      (globalsPass scriptMode file history u n).1.2.fns.map (Fn.rename ρ) := by
    rw [globalsPass_fns, globalsPass_fns, scopes.fns]
  have owned : ∀ p ∈ (bodiesPass scriptMode file history u n).1, p.1.builtin = none :=
    fun p member => bindUnit_own p (addEntry_keeps _ _ member)
  have declared : (bindUnit scriptMode file (history.map (Declarations.rename ρ)) u
      n').1.declarations = (bindUnit scriptMode file history u n).1.declarations.rename ρ := by
    rw [bindUnit_declarations, bindUnit_declarations, bodies.reports, ← entry.related, fns, vars]
    rfl
  have code : (bindUnit scriptMode file (history.map (Declarations.rename ρ)) u n').1.bodies =
      Bodies.rename ρ (bindUnit scriptMode file history u n).1.bodies := by
    rw [bindUnit_bodies, bindUnit_bodies, ← bodies.related, ← entry.related,
      ← statements.related.item]
    exact addEntry_rename owned bindUnit_ownEntry
  exact congrArg₂ BoundUnit.mk declared code

end

def Program.rename (κ : Relabelling) (p : Program) : Program :=
  { p with
    entry := p.entry.map (Fn.rename κ)
    bodies := p.bodies.rename κ
    earlier := p.earlier.map (Bodies.rename κ) }

def Compilation.rename (ρ : Renaming) (c : Compilation) : Compilation :=
  { c with
    declarations := c.declarations.rename ρ
    program := c.program.rename ρ
    history := c.history.map (Declarations.rename ρ) }

namespace Compilation

variable {ρ : Renaming} {options : Options} {history : List Declarations} {earlier : List Bodies}
  {u : Source.Unit} {n n' : Nat}

/-- The check of returns reports the same, whatever numbers the code has. -/
theorem lowerBodies_rename_reports {file : Option String} {n n' : Nat} (bodies : Bodies)
    (shifts : ρ.Shifts n n' bodies.lowerCount) :
    (lowerBodies options file u (bodies.rename ρ) n').1.2 =
      (lowerBodies options file u bodies n).1.2 := by
  induction bodies generalizing n n' with
  | nil => rfl
  | cons p bodies ih =>
    obtain ⟨f, body⟩ := p
    have lowered : (body.rename ρ).lower f.returns n' = _ := Body.lower_rename f.returns shifts.front
    have stop : (body.lower f.returns n).2 = n + Stmt.lowerCountOf body := Stmt.lowerAll_count body n
    have rest := ih shifts.back
    rw [← stop] at rest
    rw [Bodies.rename, List.map_cons, Prod.map_apply, lowerBodies_cons, lowerBodies_cons]
    simp only [Fn.returns_rename, lowered, Body.allPathsReturn_rename]
    refine congrArg₂ (· ++ ·) rfl ?_
    exact rest

/-- A unit is compiled from another start to the same under other numbers. -/
theorem compileAfter_carried (carries : ρ.Carries n n') :
    (compileAfter options (history.map (Declarations.rename ρ)) (earlier.map (Bodies.rename ρ)) u
        n').1 = (compileAfter options history earlier u n).1.rename ρ ∧
      ρ.Carries (compileAfter options history earlier u n).2
        (compileAfter options (history.map (Declarations.rename ρ)) (earlier.map (Bodies.rename ρ))
          u n').2 := by
  obtain ⟨bound, numbers⟩ :=
    @bindUnit_carried ρ options.scriptMode options.file history u n n' carries
  have shifts := numbers.shifts
    (Bodies.lowerCount (bindUnit options.scriptMode options.file history u n).1.bodies)
  have lowered : LoweredAlike ρ (lowerBodies options (options.file <|> u.file) u _ _).1
      (lowerBodies options (options.file <|> u.file) u (Bodies.rename ρ _) _).1 :=
    lowerBodies_rename _ shifts
  have reports : (lowerBodies options (options.file <|> u.file) u (Bodies.rename ρ _) _).1.2 = _ :=
    lowerBodies_rename_reports _ shifts
  refine ⟨?_, ?_⟩
  · rw [compileAfter_eq]
    dsimp only
    rw [bound]
    dsimp only [BoundUnit.rename]
    rw [lowered.bodies, reports]
    rfl
  · rw [compileAfter_end, compileAfter_end, bound, BoundUnit.rename, Bodies.lowerCount_rename]
    exact numbers.add _

end Compilation

end ScriptLang
