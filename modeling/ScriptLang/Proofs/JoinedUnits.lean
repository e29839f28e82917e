import ScriptLang.Proofs.ScopeGrowth

/-! Two scripts stand in a row, and another one has the members of both. It declares the functions of
both first, binds the statements of both next, and then the bodies of all functions. Each of these
parts is bound to the same as in the row, under other numbers: what the first script mentions is
hidden by nothing of the second one, and the second one finds of the first one what is in scope
there. -/

namespace ScriptLang

/-- How many numbers a script takes: for the heads of its functions, its statements, the bodies of
its functions, and for lowering these and the statements. -/
structure UnitCounts where
  heads : Nat
  globals : Nat
  bodies : Nat
  lowered : Nat
  entry : Nat

namespace UnitCounts

variable (c : UnitCounts) (n : Nat)

def globalsAt : Nat := n + 5 + c.heads

def bodiesAt : Nat := c.globalsAt n + c.globals + 1

def loweredAt : Nat := c.bodiesAt n + c.bodies

def entryAt : Nat := c.loweredAt n + c.lowered

def stop : Nat := c.entryAt n + c.entry

def join (a b : UnitCounts) : UnitCounts :=
  ⟨a.heads + b.heads, a.globals + b.globals, a.bodies + b.bodies, a.lowered + b.lowered,
    a.entry + b.entry⟩

end UnitCounts

/-- Two rows of numbers, which start at `i` and `j`, become one that starts at `t`. -/
def Renaming.Lines (ρ : Renaming) (i k j l t : Nat) : Prop :=
  ρ.Shifts i t k ∧ ρ.Shifts j (t + k) l

/-- The numbers of two scripts, which start at `n` and `m`, become those of one that starts at `n`.
The entry function of neither is in it. -/
structure Renaming.Joins (ρ : Renaming) (n m : Nat) (a b : UnitCounts) : Prop where
  start : ρ.Shifts 0 0 (a.globalsAt n)
  heads : ρ.Shifts (m + 5) (a.globalsAt n) b.heads
  globals : ρ.Lines (a.globalsAt n) a.globals (b.globalsAt m) b.globals ((a.join b).globalsAt n)
  bodies : ρ.Lines (a.bodiesAt n) a.bodies (b.bodiesAt m) b.bodies ((a.join b).bodiesAt n)
  lowered : ρ.Lines (a.loweredAt n) a.lowered (b.loweredAt m) b.lowered ((a.join b).loweredAt n)
  entry : ρ.Lines (a.entryAt n) a.entry (b.entryAt m) b.entry ((a.join b).entryAt n)
  firstBuiltins : ∀ i < 5, ρ.builtin (n + i) = n + i
  secondBuiltins : ∀ i < 5, ρ.builtin (m + i) = n + i

theorem Renaming.exists_joins (n m : Nat) (a b : UnitCounts) (later : a.stop n ≤ m) :
    ∃ ρ : Renaming, ρ.Joins n m a b := by
  let w := a.join b
  let moves : List Move := [
    ⟨0, 0, a.globalsAt n⟩, ⟨m + 5, a.globalsAt n, b.heads⟩,
    ⟨a.globalsAt n, w.globalsAt n, a.globals⟩, ⟨b.globalsAt m, w.globalsAt n + a.globals, b.globals⟩,
    ⟨a.bodiesAt n, w.bodiesAt n, a.bodies⟩, ⟨b.bodiesAt m, w.bodiesAt n + a.bodies, b.bodies⟩,
    ⟨a.loweredAt n, w.loweredAt n, a.lowered⟩, ⟨b.loweredAt m, w.loweredAt n + a.lowered, b.lowered⟩,
    ⟨a.entryAt n, w.entryAt n, a.entry⟩, ⟨b.entryAt m, w.entryAt n + a.entry, b.entry⟩]
  have sources : moves.Pairwise fun x y => Move.Apart x.source x.length y.source y.length := by
    simp only [moves, List.pairwise_cons, List.forall_mem_cons, List.not_mem_nil, false_imp_iff,
      implies_true, and_true, List.Pairwise.nil, Move.Apart, UnitCounts.globalsAt,
      UnitCounts.bodiesAt, UnitCounts.loweredAt, UnitCounts.entryAt, UnitCounts.stop] at later ⊢
    omega
  have targets : moves.Pairwise fun x y => Move.Apart x.target x.length y.target y.length := by
    simp only [moves, w, List.pairwise_cons, List.forall_mem_cons, List.not_mem_nil, false_imp_iff,
      implies_true, and_true, List.Pairwise.nil, Move.Apart, UnitCounts.join, UnitCounts.globalsAt,
      UnitCounts.bodiesAt, UnitCounts.loweredAt, UnitCounts.entryAt]
    omega
  obtain ⟨ρ, builtin, shifts⟩ :=
    Move.exists_renaming (fun id => if id < m then id else id - m + n) sources targets
  simp only [moves, List.forall_mem_cons] at shifts
  obtain ⟨start, heads, g₁, g₂, b₁, b₂, l₁, l₂, e₁, e₂, _⟩ := shifts
  refine ⟨ρ, start, heads, ⟨g₁, g₂⟩, ⟨b₁, b₂⟩, ⟨l₁, l₂⟩, ⟨e₁, e₂⟩, fun i bound => ?_, fun i bound => ?_⟩
  · have below : n + i < m := by
      simp only [UnitCounts.globalsAt, UnitCounts.bodiesAt, UnitCounts.loweredAt,
        UnitCounts.entryAt, UnitCounts.stop] at later
      omega
    simp only [builtin, if_pos below]
  · rw [builtin]
    dsimp only
    rw [if_neg (by omega)]
    omega

namespace Binding

variable {ρ : Renaming}

theorem lookup?_rootScope (n : Nat) (name : String) :
    (rootScope n).1.lookup? name =
      if name = "rnd" then
        some (.fn ⟨n + 4, "rnd", [⟨n + 3, "max", .int, .parameter 0, .readOnly none⟩], .int, none,
          some .rnd⟩)
      else if name = "input" then some (.fn ⟨n + 2, "input", [], .string, none, some .input⟩)
      else if name = "print" then
        some (.fn ⟨n + 1, "print", [⟨n, "text", .any, .parameter 0, .readOnly none⟩], .void, none,
          some .print⟩)
      else none := by
  show (((Scope.root.replace "print" _).replace "input" _).replace "rnd" _).lookup? name = _
  rw [Scope.lookup?_replace, Scope.lookup?_replace, Scope.lookup?_replace]
  rfl

/-- The builtins of one unit are those of another one under other numbers. -/
theorem rootScope_renamed {n n' : Nat} (moves : ∀ i < 5, ρ.builtin (n + i) = n' + i) (name : String) :
    (rootScope n').1.lookup? name = ((rootScope n).1.lookup? name).map (Symbol.rename ρ) := by
  have first : ρ.builtin n = n' := moves 0 (by omega)
  rw [lookup?_rootScope, lookup?_rootScope]
  split_ifs <;>
    simp [Symbol.rename, Fn.rename_plain, Fn.renumber, Var.renumber, moves, first]

variable {n n' : Nat} {a b x : Scope} {among declares : String → Prop}

/-- What names mean in a scope around which there are only the builtins. -/
theorem lookup?_behind_builtins (outer : a.outer = (unitScope [] n).outer) (name : String) :
    a.lookup? name = (a.lookupLocal? name).or ((rootScope n).1.lookup? name) := by
  rw [Scope.lookup?_eq, outer, ← Scope.lookup?_push (rootScope n).1 name]
  rfl

/-- What names mean in a scope around which there are the declarations of a unit. -/
theorem lookup?_behind_unit {d : Declarations} (origin : d.From x)
    (outer : a.outer = (unitScope [d] n).outer) (name : String) :
    a.lookup? name =
      (a.lookupLocal? name).or ((x.lookupLocal? name).or ((rootScope n).1.lookup? name)) := by
  have around : (addDeclarations (rootScope n).1.push d).lookup? name = _ :=
    lookup?_addDeclarations_from origin (rootScope n).1.push name
  rw [Scope.lookup?_eq, outer, ← Scope.lookup?_push (rootScope n).1 name, ← around]
  rfl

/-- Behind the builtins, names mean the same under other numbers if the scopes know them alike. -/
theorem renamed_behind_builtins (outerA : a.outer = (unitScope [] n).outer)
    (outerB : b.outer = (unitScope [] n').outer) (moves : ∀ i < 5, ρ.builtin (n + i) = n' + i)
    (inner : ∀ name, among name → b.lookupLocal? name = (a.lookupLocal? name).map (Symbol.rename ρ)) :
    a.Renamed ρ among among b := by
  refine ⟨fun name isAmong => ?_, inner⟩
  rw [lookup?_behind_builtins outerA, lookup?_behind_builtins outerB, inner name isAmong,
    rootScope_renamed moves, Option.map_or]

/-- In the first scope, names mean what they mean there, or else what they mean behind an earlier
unit. In the second one, the names of both are in one scope. -/
theorem renamed_behind_unit {d : Declarations} (origin : d.From x)
    (outerA : a.outer = (unitScope [d] n).outer) (outerB : b.outer = (unitScope [] n').outer)
    (moves : ∀ i < 5, ρ.builtin (n + i) = n' + i)
    (own : ∀ name, declares name →
      b.lookupLocal? name = (a.lookupLocal? name).map (Symbol.rename ρ) ∧ ¬x.Declares name)
    (others : ∀ name, ¬declares name →
      b.lookupLocal? name = (x.lookupLocal? name).map (Symbol.rename ρ) ∧ ¬a.Declares name) :
    a.Renamed ρ (fun _ => True) declares b := by
  refine ⟨fun name _ => ?_, fun name isOwn => (own name isOwn).1⟩
  rw [lookup?_behind_unit origin outerA, lookup?_behind_builtins outerB, rootScope_renamed moves]
  by_cases isOwn : declares name
  · obtain ⟨same, new⟩ := own name isOwn
    rw [same, Scope.lookupLocal?_eq_none_iff.2 new, Option.none_or, Option.map_or]
  · obtain ⟨same, new⟩ := others name isOwn
    rw [same, Scope.lookupLocal?_eq_none_iff.2 new, Option.none_or, Option.map_or]

end Binding

theorem Binding.declareFns_vars {file : Option String} {scope : Scope} (fs : List Source.Function) :
    Yields (declareFns file scope fs) fun r => r.2.vars = scope.vars := by
  induction fs generalizing scope with
  | nil => exact .pure rfl
  | cons f fs ih =>
    have added (fn : Fn) :
        Yields (addFn file scope f fn) fun r => r.2.vars = scope.vars := by
      unfold addFn Scope.declare?
      cases new : scope.inner.contains f.name.text with
      | true => exact .after fun _ => .pure rfl
      | false => exact .pure (Scope.vars_replace_fn fn new)
    unfold declareFns
    rw [declareFn_eq_head, bind_assoc]
    refine .after fun fn => (added fn).bind fun r same => ?_
    exact ih.bind fun r' same' => .pure (same'.trans same)

/-- Behind as many numbers as the first computation takes, the second one has come to a related
result without a mistake. -/
structure Bind.Alike {α β : Type} (start k : Nat) (R : α → β → Prop) (r : α × BindState)
    (r' : β × BindState) : Prop where
  next : r'.2.nextId = start + k
  silent : r'.2.Silent
  related : R r.1 r'.1

theorem Bind.Parallel.alike {α β : Type} {same : Prop} {R : α → β → Prop} {x : Bind α} {y : Bind β}
    {k : Nat} (s s' : BindState) (parallel : Parallel same s.nextId s'.nextId k R x y)
    (silent : (x s).2.Silent) (silent' : s'.Silent) : Alike s'.nextId k R (x s) (y s') := by
  obtain ⟨_, count', keep, related⟩ := parallel s.diagnostics s'.diagnostics
  exact ⟨count', (keep.silence silent).2 silent', related⟩

namespace Binding

section

variable (file : Option String) (history : List Declarations) (u : Source.Unit) (next : Nat)

def unitCounts : UnitCounts where
  heads := headCounts u.functions
  globals := Source.Stmt.symbolCountOf u.statements
  bodies := ((headsPass file history u next).1.1.map (·.2.bodyCount)).sum
  lowered := Bodies.lowerCount (bodiesPass true file history u next).1
  entry := Stmt.lowerCountOf (globalsPass true file history u next).1.1

variable {file history u next}

theorem headsPass_globalsAt : (headsPass file history u next).2.nextId =
    (unitCounts file history u next).globalsAt next := headsPass_end

theorem entryPass_script : entryPass true file history u next =
    (some ⟨(globalsPass true file history u next).2.nextId, scriptName, [], .void, none, none⟩,
      ⟨(globalsPass true file history u next).2.nextId + 1,
        (globalsPass true file history u next).2.diagnostics⟩) := rfl

theorem entryPass_bodiesAt : (entryPass true file history u next).2.nextId =
    (unitCounts file history u next).bodiesAt next := by
  rw [entryPass_script]
  exact congrArg (· + 1) (globalsPass_end.trans (congrArg (· + _) headsPass_globalsAt))

theorem bodiesPass_loweredAt : (bodiesPass true file history u next).2.nextId =
    (unitCounts file history u next).loweredAt next :=
  bodiesPass_end.trans (congrArg (· + _) entryPass_bodiesAt)

end

section

variable (file : Option String) (u₁ u₂ w : Source.Unit) (next : Nat)

def firstHeads : (List (Fn × Source.Function) × Scope) × BindState :=
  declareFns (file <|> w.file) (unitScope [] next) u₁.functions ⟨next + 5, .empty⟩

def secondHeads : (List (Fn × Source.Function) × Scope) × BindState :=
  let heads := firstHeads file u₁ w next
  declareFns (file <|> w.file) heads.1.2 u₂.functions heads.2

def firstGlobals : (Body × Scope) × BindState :=
  let heads := secondHeads file u₁ u₂ w next
  globals (unitContext true file w) heads.1.2 u₁.statements heads.2

def secondGlobals : (Body × Scope) × BindState :=
  let statements := firstGlobals file u₁ u₂ w next
  globals (unitContext true file w) statements.1.2 u₂.statements statements.2

def firstBodies : List (Fn × Body) × BindState :=
  functionBodies (unitContext true file w) (secondGlobals file u₁ u₂ w next).1.2
    (firstHeads file u₁ w next).1.1 (entryPass true file [] w next).2

def secondBodies : List (Fn × Body) × BindState :=
  functionBodies (unitContext true file w) (secondGlobals file u₁ u₂ w next).1.2
    (secondHeads file u₁ u₂ w next).1.1 (firstBodies file u₁ u₂ w next).2

end

/-- The last unit has the members of the two others. -/
structure Members (u₁ u₂ w : Source.Unit) : Prop where
  functions : w.functions = u₁.functions ++ u₂.functions
  statements : w.statements = u₁.statements ++ u₂.statements

variable {file : Option String} {u₁ u₂ w : Source.Unit} {next later : Nat}

theorem headsPass_joined (members : Members u₁ u₂ w) : headsPass file [] w next =
    (((firstHeads file u₁ w next).1.1 ++ (secondHeads file u₁ u₂ w next).1.1,
      (secondHeads file u₁ u₂ w next).1.2), (secondHeads file u₁ u₂ w next).2) := by
  unfold headsPass
  rw [members.functions, declareFns_append]
  rfl

theorem globalsPass_joined (members : Members u₁ u₂ w) : globalsPass true file [] w next =
    (((firstGlobals file u₁ u₂ w next).1.1 ++ (secondGlobals file u₁ u₂ w next).1.1,
      (secondGlobals file u₁ u₂ w next).1.2), (secondGlobals file u₁ u₂ w next).2) := by
  unfold globalsPass
  rw [headsPass_joined members, members.statements]
  dsimp only
  rw [globals_append]
  rfl

theorem bodiesPass_joined (members : Members u₁ u₂ w) : bodiesPass true file [] w next =
    ((firstBodies file u₁ u₂ w next).1 ++ (secondBodies file u₁ u₂ w next).1,
      (secondBodies file u₁ u₂ w next).2) := by
  unfold bodiesPass
  rw [headsPass_joined members, globalsPass_joined members, functionBodies_append]
  rfl

abbrev firstDeclarations (file : Option String) (u₁ : Source.Unit) (next : Nat) : Declarations :=
  (bindUnit true file [] u₁ next).1.declarations

abbrev secondNames (file : Option String) (u₁ u₂ : Source.Unit) (next later : Nat)
    (name : String) : Prop :=
  (globalsPass true file [firstDeclarations file u₁ next] u₂ later).1.2.Declares name

abbrev otherNames (file : Option String) (u₁ u₂ : Source.Unit) (next later : Nat)
    (name : String) : Prop := ¬secondNames file u₁ u₂ next later name

/-- Two scripts without errors, and one with the members of both. Names that the second one puts in
scope do not stand for anything in the first one. -/
structure Joining (ρ : Renaming) (file : Option String) (u₁ u₂ w : Source.Unit)
    (next later : Nat) : Prop where
  members : Members u₁ u₂ w
  first : (bodiesPass true file [] u₁ next).2.Silent
  second : (bodiesPass true file [firstDeclarations file u₁ next] u₂ later).2.Silent
  unused : ∀ name, secondNames file u₁ u₂ next later name → name ∉ u₁.names
  undeclared : ∀ name, secondNames file u₁ u₂ next later name →
    ¬(globalsPass true file [] u₁ next).1.2.Declares name
  numbers : ρ.Joins next later (unitCounts file [] u₁ next)
    (unitCounts file [firstDeclarations file u₁ next] u₂ later)

namespace Joining

variable {ρ : Renaming}

theorem not_first {name : String} (joining : Joining ρ file u₁ u₂ w next later)
    (isFirst : name ∈ u₁.functions.map (·.name.text) ∨
      name ∈ u₁.statements.flatMap Source.Stmt.exports) :
    ¬secondNames file u₁ u₂ next later name := by
  refine fun isSecond => joining.undeclared name isSecond (globalsPass_grown.declares_iff.2 ?_)
  exact isFirst.symm.imp_right (headsPass_grown.declared name)

theorem isSecond {name : String}
    (isSecond : name ∈ u₂.functions.map (·.name.text) ∨
      name ∈ u₂.statements.flatMap Source.Stmt.exports) : secondNames file u₁ u₂ next later name :=
  globalsPass_grown.declares_iff.2 (isSecond.symm.imp_right (headsPass_grown.declared name))

theorem firstHeads_grown : (unitScope [] next).Grown (u₁.functions.map (·.name.text))
    (firstHeads file u₁ w next).1.2 := declareFns_grow _ _

theorem secondHeads_grown : (firstHeads file u₁ w next).1.2.Grown
    (u₂.functions.map (·.name.text)) (secondHeads file u₁ u₂ w next).1.2 := declareFns_grow _ _

theorem firstHeads_alike (joining : Joining ρ file u₁ u₂ w next later) :
    Bind.Alike (next + 5) (headCounts u₁.functions)
      (Scope.RenamedBehind ρ (fun _ => True) (fun _ => True) (unitScope [] next) (unitScope [] next)
        (List.map (Prod.map (Fn.rename ρ) id)))
      (headsPass file [] u₁ next) (firstHeads file u₁ w next) := by
  have starts : (unitScope [] next).Renamed ρ (fun _ => True) (fun _ => True) (unitScope [] next) :=
    renamed_behind_builtins rfl rfl joining.numbers.firstBuiltins fun _ _ => rfl
  have shifts : ρ.Shifts (next + 5) (next + 5) (headCounts u₁.functions) :=
    joining.numbers.start.part (by omega) (Nat.le_of_eq (Nat.zero_add _).symm)
  exact Bind.Parallel.alike ⟨next + 5, .empty⟩ ⟨next + 5, .empty⟩
    (declareFns_renames starts u₁.functions (fun _ _ => trivial) shifts)
    (silent_passes joining.first).1 rfl

theorem firstHeads_next (joining : Joining ρ file u₁ u₂ w next later) :
    (firstHeads file u₁ w next).2.nextId = (unitCounts file [] u₁ next).globalsAt next :=
  joining.firstHeads_alike.next

theorem secondHeads_alike (joining : Joining ρ file u₁ u₂ w next later) :
    Bind.Alike (firstHeads file u₁ w next).2.nextId (headCounts u₂.functions)
      (Scope.RenamedBehind ρ (fun _ => False) (secondNames file u₁ u₂ next later)
        (unitScope [firstDeclarations file u₁ next] later) (firstHeads file u₁ w next).1.2
        (List.map (Prod.map (Fn.rename ρ) id)))
      (headsPass file [firstDeclarations file u₁ next] u₂ later)
      (secondHeads file u₁ u₂ w next) := by
  have starts : (unitScope [firstDeclarations file u₁ next] later).Renamed ρ (fun _ => False)
      (secondNames file u₁ u₂ next later) (firstHeads file u₁ w next).1.2 := by
    refine ⟨fun _ => False.elim, fun name isSecond => ?_⟩
    rw [firstHeads_grown.others name fun isFirst => joining.not_first (.inl isFirst) isSecond]
    rfl
  have shifts : ρ.Shifts (later + 5) (firstHeads file u₁ w next).2.nextId
      (headCounts u₂.functions) := joining.firstHeads_next ▸ joining.numbers.heads
  refine Bind.Parallel.alike ⟨later + 5, .empty⟩ (firstHeads file u₁ w next).2
    (declareFns_renames starts u₂.functions (fun f member => ?_) shifts)
    (silent_passes joining.second).1 joining.firstHeads_alike.silent
  exact isSecond (.inl (List.mem_map_of_mem member))

theorem secondHeads_next (joining : Joining ρ file u₁ u₂ w next later) :
    (secondHeads file u₁ u₂ w next).2.nextId = ((unitCounts file [] u₁ next).join
      (unitCounts file [firstDeclarations file u₁ next] u₂ later)).globalsAt next := by
  rw [joining.secondHeads_alike.next, joining.firstHeads_next]
  exact Nat.add_assoc _ _ _

theorem firstGlobals_grown : (secondHeads file u₁ u₂ w next).1.2.Grown
    (u₁.statements.flatMap Source.Stmt.exports) (firstGlobals file u₁ u₂ w next).1.2 :=
  globals_grow _ _

theorem secondGlobals_grown : (firstGlobals file u₁ u₂ w next).1.2.Grown
    (u₂.statements.flatMap Source.Stmt.exports) (secondGlobals file u₁ u₂ w next).1.2 :=
  globals_grow _ _

theorem secondHeads_outer :
    (secondHeads file u₁ u₂ w next).1.2.outer = (unitScope [] next).outer :=
  secondHeads_grown.outer.trans firstHeads_grown.outer

/-- What the first unit knows behind its heads is in the joined scope as well. -/
theorem firstStatements_renamed (joining : Joining ρ file u₁ u₂ w next later) :
    (headsPass file [] u₁ next).1.2.Renamed ρ (otherNames file u₁ u₂ next later)
      (otherNames file u₁ u₂ next later) (secondHeads file u₁ u₂ w next).1.2 := by
  refine renamed_behind_builtins headsPass_grown.outer secondHeads_outer
    joining.numbers.firstBuiltins fun name isOther => ?_
  rw [secondHeads_grown.others name fun member => isOther (isSecond (.inl member))]
  exact joining.firstHeads_alike.related.scope.inner name trivial

theorem firstGlobals_alike (joining : Joining ρ file u₁ u₂ w next later) :
    Bind.Alike (secondHeads file u₁ u₂ w next).2.nextId (Source.Stmt.symbolCountOf u₁.statements)
      (Scope.RenamedBehind ρ (otherNames file u₁ u₂ next later) (otherNames file u₁ u₂ next later)
        (headsPass file [] u₁ next).1.2 (secondHeads file u₁ u₂ w next).1.2
        (List.map (Stmt.rename ρ)))
      (globalsPass true file [] u₁ next) (firstGlobals file u₁ u₂ w next) := by
  have shifts : ρ.Shifts (headsPass file [] u₁ next).2.nextId (secondHeads file u₁ u₂ w next).2.nextId
      (Source.Stmt.symbolCountOf u₁.statements) := by
    rw [headsPass_globalsAt, joining.secondHeads_next]
    exact joining.numbers.globals.1
  refine Bind.Parallel.alike (headsPass file [] u₁ next).2 (secondHeads file u₁ u₂ w next).2
    (globals_renames renamed_unitContext joining.firstStatements_renamed u₁.statements
      (fun name member isSecond => ?_) (fun s member name exported => ?_) shifts)
    (silent_passes joining.first).2.1 joining.secondHeads_alike.silent
  · exact joining.unused name isSecond (List.mem_append_left _ member)
  · exact joining.not_first (.inr (List.mem_flatMap.2 ⟨s, member, exported⟩))

theorem firstGlobals_next (joining : Joining ρ file u₁ u₂ w next later) :
    (firstGlobals file u₁ u₂ w next).2.nextId = ((unitCounts file [] u₁ next).join
        (unitCounts file [firstDeclarations file u₁ next] u₂ later)).globalsAt next +
      (unitCounts file [] u₁ next).globals := by
  rw [joining.firstGlobals_alike.next, joining.secondHeads_next]
  rfl

/-- What the second unit knows behind its heads, of its own and of the first one, is in the joined
scope behind the statements of the first one. -/
theorem secondStatements_renamed (joining : Joining ρ file u₁ u₂ w next later) :
    (headsPass file [firstDeclarations file u₁ next] u₂ later).1.2.Renamed ρ (fun _ => True)
      (secondNames file u₁ u₂ next later) (firstGlobals file u₁ u₂ w next).1.2 := by
  have origin : (firstDeclarations file u₁ next).From (globalsPass true file [] u₁ next).1.2 :=
    bindUnit_from
  refine renamed_behind_unit origin headsPass_grown.outer
    (firstGlobals_grown.outer.trans secondHeads_outer) joining.numbers.secondBuiltins
    (fun name isSecond => ⟨?_, joining.undeclared name isSecond⟩) fun name isOther => ⟨?_, ?_⟩
  · rw [firstGlobals_grown.others name fun isFirst => joining.not_first (.inr isFirst) isSecond]
    exact joining.secondHeads_alike.related.scope.inner name isSecond
  · exact joining.firstGlobals_alike.related.scope.inner name isOther
  · exact fun declared => isOther (globalsPass_grown.declares_iff.2 (.inr declared))

theorem secondGlobals_alike (joining : Joining ρ file u₁ u₂ w next later) :
    Bind.Alike (firstGlobals file u₁ u₂ w next).2.nextId (Source.Stmt.symbolCountOf u₂.statements)
      (Scope.RenamedBehind ρ (fun _ => True) (secondNames file u₁ u₂ next later)
        (headsPass file [firstDeclarations file u₁ next] u₂ later).1.2
        (firstGlobals file u₁ u₂ w next).1.2 (List.map (Stmt.rename ρ)))
      (globalsPass true file [firstDeclarations file u₁ next] u₂ later)
      (secondGlobals file u₁ u₂ w next) := by
  have shifts : ρ.Shifts (headsPass file [firstDeclarations file u₁ next] u₂ later).2.nextId
      (firstGlobals file u₁ u₂ w next).2.nextId (Source.Stmt.symbolCountOf u₂.statements) := by
    rw [headsPass_globalsAt, joining.firstGlobals_next]
    exact joining.numbers.globals.2
  refine Bind.Parallel.alike (headsPass file [firstDeclarations file u₁ next] u₂ later).2
    (firstGlobals file u₁ u₂ w next).2
    (globals_renames renamed_unitContext joining.secondStatements_renamed u₂.statements
      (fun _ _ => trivial) (fun s member name exported => ?_) shifts)
    (silent_passes joining.second).2.1 joining.firstGlobals_alike.silent
  exact isSecond (.inr (List.mem_flatMap.2 ⟨s, member, exported⟩))

theorem joinedEntry (joining : Joining ρ file u₁ u₂ w next later) :
    entryPass true file [] w next =
      (some ⟨(secondGlobals file u₁ u₂ w next).2.nextId, scriptName, [], .void, none, none⟩,
        ⟨(secondGlobals file u₁ u₂ w next).2.nextId + 1,
          (secondGlobals file u₁ u₂ w next).2.diagnostics⟩) := by
  rw [entryPass_script, globalsPass_joined joining.members]

theorem joinedEntry_next (joining : Joining ρ file u₁ u₂ w next later) :
    (entryPass true file [] w next).2.nextId = ((unitCounts file [] u₁ next).join
      (unitCounts file [firstDeclarations file u₁ next] u₂ later)).bodiesAt next := by
  rw [joining.joinedEntry]
  refine congrArg (· + 1) ?_
  rw [joining.secondGlobals_alike.next, joining.firstGlobals_next]
  exact Nat.add_assoc _ _ _

theorem firstBodies_alike (joining : Joining ρ file u₁ u₂ w next later) :
    Bind.Alike (entryPass true file [] w next).2.nextId (unitCounts file [] u₁ next).bodies
      (Bodies.rename ρ · = ·) (bodiesPass true file [] u₁ next) (firstBodies file u₁ u₂ w next) := by
  have behind : (globalsPass true file [] u₁ next).1.2.Renamed ρ (otherNames file u₁ u₂ next later)
      (otherNames file u₁ u₂ next later) (secondGlobals file u₁ u₂ w next).1.2 := by
    refine renamed_behind_builtins (globalsPass_grown.outer.trans headsPass_grown.outer)
      (secondGlobals_grown.outer.trans (firstGlobals_grown.outer.trans secondHeads_outer))
      joining.numbers.firstBuiltins fun name isOther => ?_
    rw [secondGlobals_grown.others name fun member => isOther (isSecond (.inr member))]
    exact joining.firstGlobals_alike.related.scope.inner name isOther
  have shifts : ρ.Shifts (entryPass true file [] u₁ next).2.nextId
      (entryPass true file [] w next).2.nextId (unitCounts file [] u₁ next).bodies := by
    rw [entryPass_bodiesAt, joining.joinedEntry_next]
    exact joining.numbers.bodies.1
  have silent : (entryPass true file [] w next).2.Silent := by
    rw [joining.joinedEntry]
    exact joining.secondGlobals_alike.silent
  unfold firstBodies
  rw [← joining.firstHeads_alike.related.item]
  refine Bind.Parallel.alike (entryPass true file [] u₁ next).2 (entryPass true file [] w next).2
    (functionBodies_renames renamed_unitContext behind (headsPass file [] u₁ next).1.1
      headsPass_own (fun p member name used isSecond => ?_) shifts) joining.first silent
  have isFunction : p.2 ∈ u₁.functions := by
    rw [← headsPass_makes.1]
    exact List.mem_map_of_mem member
  exact joining.unused name isSecond
    (List.mem_append_right _ (List.mem_flatMap.2 ⟨p.2, isFunction, used⟩))

theorem secondBodies_alike (joining : Joining ρ file u₁ u₂ w next later) :
    Bind.Alike (firstBodies file u₁ u₂ w next).2.nextId
      (unitCounts file [firstDeclarations file u₁ next] u₂ later).bodies (Bodies.rename ρ · = ·)
      (bodiesPass true file [firstDeclarations file u₁ next] u₂ later)
      (secondBodies file u₁ u₂ w next) := by
  have shifts : ρ.Shifts (entryPass true file [firstDeclarations file u₁ next] u₂ later).2.nextId
      (firstBodies file u₁ u₂ w next).2.nextId
      (unitCounts file [firstDeclarations file u₁ next] u₂ later).bodies := by
    rw [entryPass_bodiesAt, joining.firstBodies_alike.next, joining.joinedEntry_next]
    exact joining.numbers.bodies.2
  unfold secondBodies
  rw [← joining.secondHeads_alike.related.item]
  exact Bind.Parallel.alike (entryPass true file [firstDeclarations file u₁ next] u₂ later).2
    (firstBodies file u₁ u₂ w next).2
    (functionBodies_renames renamed_unitContext joining.secondGlobals_alike.related.scope
      (headsPass file [firstDeclarations file u₁ next] u₂ later).1.1 headsPass_own
      (fun _ _ _ _ => trivial) shifts) joining.second joining.firstBodies_alike.silent

theorem noErrors (joining : Joining ρ file u₁ u₂ w next later) :
    (bindUnit true file [] w next).1.declarations.diagnostics.hasErrors = false := by
  have silent := joining.secondBodies_alike.silent
  have whole : (bodiesPass true file [] w next).2 = _ := congrArg Prod.snd
    (bodiesPass_joined joining.members)
  rw [← whole] at silent
  exact silent

theorem joined_next (joining : Joining ρ file u₁ u₂ w next later) :
    (bindUnit true file [] w next).2 = ((unitCounts file [] u₁ next).join
      (unitCounts file [firstDeclarations file u₁ next] u₂ later)).loweredAt next := by
  show (bodiesPass true file [] w next).2.nextId = _
  rw [bodiesPass_joined joining.members]
  dsimp only
  rw [joining.secondBodies_alike.next, joining.firstBodies_alike.next, joining.joinedEntry_next]
  exact Nat.add_assoc _ _ _

theorem bodies (joining : Joining ρ file u₁ u₂ w next later) :
    (bodiesPass true file [] w next).1 = Bodies.rename ρ (bodiesPass true file [] u₁ next).1 ++
      Bodies.rename ρ (bodiesPass true file [firstDeclarations file u₁ next] u₂ later).1 := by
  rw [bodiesPass_joined joining.members, joining.firstBodies_alike.related,
    joining.secondBodies_alike.related]

theorem statements (joining : Joining ρ file u₁ u₂ w next later) :
    (globalsPass true file [] w next).1.1 = Body.rename ρ (globalsPass true file [] u₁ next).1.1 ++
      Body.rename ρ (globalsPass true file [firstDeclarations file u₁ next] u₂ later).1.1 := by
  rw [globalsPass_joined joining.members, Body.rename, Body.rename,
    joining.firstGlobals_alike.related.item, joining.secondGlobals_alike.related.item]

theorem vars (joining : Joining ρ file u₁ u₂ w next later) :
    (bindUnit true file [] w next).1.declarations.vars =
      ((firstDeclarations file u₁ next).vars ++ (bindUnit true file
        [firstDeclarations file u₁ next] u₂ later).1.declarations.vars).map (Var.rename ρ) := by
  have noVars (file' : Option String) (scope : Scope) (fs : List Source.Function) (s : BindState) :
      (declareFns file' scope fs s).1.2.vars = scope.vars := declareFns_vars fs s
  obtain ⟨new, vars, vars'⟩ := joining.firstGlobals_alike.related.vars
  obtain ⟨more, moreVars, moreVars'⟩ := joining.secondGlobals_alike.related.vars
  have whole : (globalsPass true file [] w next).1.2.vars =
      (secondGlobals file u₁ u₂ w next).1.2.vars := by rw [globalsPass_joined joining.members]
  show (globalsPass true file [] w next).1.2.vars =
    ((globalsPass true file [] u₁ next).1.2.vars ++
      (globalsPass true file [firstDeclarations file u₁ next] u₂ later).1.2.vars).map (Var.rename ρ)
  rw [whole, moreVars', vars', moreVars, vars, headsPass, headsPass, noVars, noVars, secondHeads,
    noVars, firstHeads, noVars, List.map_append, List.map_append]
  rfl

end Joining

end Binding

end ScriptLang
