import ScriptLang.Proofs.JoinedCode
import ScriptLang.Proofs.SplitRuns
import ScriptLang.Proofs.UnreachableRuns

/-! Two scripts that are compiled and run in a row do what one script does that has the members of both,
if the names of the second one stand for nothing in the first one, and the first one runs to its end. -/

namespace ScriptLang

/-- Code behind the units can name the function and call it. -/
def Callee (units : List Bodies) (f : Fn) : Prop := f.Declared ∧ Callable units f

theorem Callee.cons {units : List Bodies} {f : Fn} (bodies : Bodies) (callee : Callee units f) :
    Callee (bodies :: units) f := ⟨callee.1, callee.2.cons bodies⟩

/-- What is known of the functions of units in a row: each has a number of its own, what units declare
has a body, and code calls nothing else. -/
structure Catalogued (history : List Declarations) (units : List Bodies) (next : Nat) : Prop where
  declared : ∀ d ∈ history, ∀ f ∈ d.fns, Callee units f
  below : ∀ f, HasBody units f → f.id < next
  nodup : (units.flatten.map (·.1.id)).Nodup
  whole : ∀ q ∈ units.flatten, q.2.SelfContained
  calls : ∀ q ∈ units.flatten, CallsOnly (Callee units) q.2

theorem Catalogued.start (next : Nat) : Catalogued [] [] next :=
  ⟨List.forall_mem_nil _, fun _ ⟨_, member⟩ => absurd member List.not_mem_nil, .nil,
    List.forall_mem_nil _, List.forall_mem_nil _⟩

open Compilation in
theorem Catalogued.compileAfter {history : List Declarations} {units : List Bodies} {next : Nat}
    (catalogued : Catalogued history units next) (options : Options) (u : Source.Unit) :
    let c := compileAfter options history units u next
    Catalogued (c.1.declarations :: history) c.1.program.units c.2 := by
  intro c
  have callable : ∀ d ∈ history, ∀ f ∈ d.fns, Callable units f :=
    fun d member f declares => (catalogued.declared d member f declares).2
  have declares := bindUnit_declares (fun d member f declares =>
    (catalogued.declared d member f declares).1) options.scriptMode options.file u next
  obtain ⟨called, found, _⟩ := @compileAfter_finds options history units u next callable
  have callees : ∀ q ∈ c.1.program.bodies, CallsOnly (Callee c.1.program.units) q.2 :=
    lowerBodies_callsOnly fun q member f isCalled =>
      ⟨declares.calls q member f isCalled, called q member f isCalled⟩
  have units_eq : c.1.program.units.flatten = c.1.program.bodies ++ units.flatten := rfl
  refine ⟨?_, below_compileAfter catalogued.below, ?_, ?_, ?_⟩
  · refine List.forall_mem_cons.2 ⟨fun f isOwn => ⟨declares.fns f isOwn, found f isOwn⟩, ?_⟩
    exact fun d member f isOld => (catalogued.declared d member f isOld).cons _
  · rw [units_eq, List.map_append]
    refine List.nodup_append.2 ⟨compileAfter_nodup, catalogued.nodup, fun id new other old same => ?_⟩
    obtain ⟨q, within, rfl⟩ := List.mem_map.1 new
    obtain ⟨r, earlier, rfl⟩ := List.mem_map.1 old
    have key : q.1 ∈ c.1.program.bodies.map Prod.fst := List.mem_map_of_mem within
    rw [compileAfter_keys] at key
    have later := bindUnit_newFns q.1 key
    have before := catalogued.below r.1 ⟨r.2, earlier⟩
    omega
  · rw [units_eq]
    exact List.forall_mem_append.2 ⟨compileAfter_selfContained, catalogued.whole⟩
  · rw [units_eq]
    refine List.forall_mem_append.2 ⟨callees, fun q old s member f isCalled => ?_⟩
    exact (catalogued.calls q old s member f isCalled).cons _

section

variable {ρ : Renaming} {p p' : Program} {history history' : List Declarations} {next next' : Nat}

/-- A function is found by its number. -/
theorem Catalogued.body?_of_mem (catalogued : Catalogued history p.units next) {f : Fn} {body : Body}
    (member : (f, body) ∈ p.units.flatten) : p.body? f = some body := by
  obtain ⟨found, isFound⟩ := Program.body?_of_hasBody ⟨body, member⟩ rfl
  obtain ⟨g, within, same⟩ := Program.mem_of_body? isFound
  have isOnly : (g, found) = (f, body) :=
    List.inj_on_of_nodup_map catalogued.nodup within member same
  rw [isFound, (Prod.mk.inj isOnly).2]

/-- Another program does the same under other numbers if it has the bodies of all functions that are
declared. -/
theorem Catalogued.renames (catalogued : Catalogued history p.units next)
    (catalogued' : Catalogued history' p'.units next')
    (has : ∀ q ∈ p.units.flatten, q.1.declaration.isSome = true →
      (q.1.rename ρ, q.2.rename ρ) ∈ p'.units.flatten) : p.Renames ρ (Callee p.units) p' where
  body? f callee own := by
    have noBuiltin : ¬f.builtin.isSome = true := by simp [own]
    obtain ⟨body, member⟩ := callee.2.resolve_left noBuiltin
    rw [catalogued.body?_of_mem member,
      catalogued'.body?_of_mem (has _ member (callee.1.resolve_left noBuiltin))]
    rfl
  whole f body _ found := by
    obtain ⟨g, member, _⟩ := Program.mem_of_body? found
    exact catalogued.whole _ member
  calls f body _ found := by
    obtain ⟨g, member, _⟩ := Program.mem_of_body? found
    exact catalogued.calls _ member

end

namespace Compilation

variable {options : Options} {history : List Declarations} {earlier : List Bodies}
  {u : Source.Unit} {next : Nat}

/-- A script starts with its code. -/
theorem compileAfter_starts (catalogued : Catalogued history earlier next)
    (isScript : options.scriptMode = true) (keeps : options.removeUnreachable = false)
    (noErrors : (compileAfter options history earlier u next).1.diagnostics.hasErrors = false) :
    let p := (compileAfter options history earlier u next).1.program
    p.StartsWith (Callee p.units) (scriptCode options.file history u next) := by
  intro p
  obtain ⟨bodies, entry, _⟩ :=
    @compileAfter_script options history earlier u next isScript keeps
  have behind := catalogued.compileAfter options u
  have member : (scriptEntry options.file history u next,
      Body.close .void (scriptCode options.file history u next)) ∈ p.units.flatten := by
    refine List.mem_append_left _ ?_
    rw [bodies]
    exact List.mem_append_right _ List.mem_cons_self
  exact ⟨noErrors, ⟨_, entry, behind.body?_of_mem member⟩, behind.whole _ member,
    behind.calls _ member⟩

end Compilation

/-- Two scripts are compiled in a row, without errors. -/
structure Compilation.InRow (options : Options) (u₁ u₂ : Source.Unit) (next later : Nat)
    (c₁ c₂ : Compilation) : Prop where
  isScript : options.scriptMode = true
  keeps : options.removeUnreachable = false
  first : compileAfter options [] [] u₁ next = (c₁, later)
  second : (compileAfter options [c₁.declarations] c₁.program.units u₂ later).1 = c₂
  noErrors₁ : c₁.diagnostics.hasErrors = false
  noErrors₂ : c₂.diagnostics.hasErrors = false

namespace Compilation.InRow

open Binding

variable {options : Options} {u₁ u₂ w : Source.Unit} {next later : Nat} {c₁ c₂ : Compilation}
  {ρ : Renaming}

theorem declarations₁ (inRow : InRow options u₁ u₂ next later c₁ c₂) :
    c₁.declarations = firstDeclarations options.file u₁ next := by
  have isFirst : (compileAfter options [] [] u₁ next).1 = c₁ := by rw [inRow.first]
  rw [← isFirst, compileAfter_eq, inRow.isScript]

theorem declarations₂ (inRow : InRow options u₁ u₂ next later c₁ c₂) : c₂.declarations =
    (bindUnit true options.file [firstDeclarations options.file u₁ next] u₂ later).1.declarations := by
  rw [← inRow.second, compileAfter_eq, inRow.isScript, inRow.declarations₁]

theorem later_eq (inRow : InRow options u₁ u₂ next later c₁ c₂) :
    (unitCounts options.file [] u₁ next).stop next = later := by
  rw [← (@compileAfter_script options [] [] u₁ next inRow.isScript inRow.keeps).2.2, inRow.first]

abbrev fns₁ (options : Options) (u₁ : Source.Unit) (next : Nat) : Bodies :=
  scriptFns options.file [] u₁ next options (options.file <|> u₁.file)

abbrev fns₂ (options : Options) (u₁ u₂ : Source.Unit) (next later : Nat) : Bodies :=
  scriptFns options.file [firstDeclarations options.file u₁ next] u₂ later options
    (options.file <|> u₂.file)

abbrev code₁ (options : Options) (u₁ : Source.Unit) (next : Nat) : Body :=
  scriptCode options.file [] u₁ next

abbrev code₂ (options : Options) (u₁ u₂ : Source.Unit) (next later : Nat) : Body :=
  scriptCode options.file [firstDeclarations options.file u₁ next] u₂ later

/-- Scripts can be joined if no name that the second one declares stands for anything in the first
one. -/
theorem exists_joining (inRow : InRow options u₁ u₂ next later c₁ c₂) (members : Members u₁ u₂ w)
    (foreign : ∀ name ∈ c₂.declarations.names, name ∉ u₁.names ∧ name ∉ c₁.declarations.names) :
    ∃ ρ, Joining ρ options.file u₁ u₂ w next later := by
  have noErrors₁ := inRow.noErrors₁
  have noErrors₂ := inRow.noErrors₂
  have isFirst : (compileAfter options [] [] u₁ next).1 = c₁ := by rw [inRow.first]
  rw [← isFirst] at noErrors₁
  rw [← inRow.second, inRow.declarations₁] at noErrors₂
  rw [inRow.declarations₁, inRow.declarations₂] at foreign
  have among {name : String} (isSecond : secondNames options.file u₁ u₂ next later name) :=
    foreign name (bindUnit_from.mem_names_iff.2 isSecond)
  obtain ⟨ρ, numbers⟩ := Renaming.exists_joins next later (unitCounts options.file [] u₁ next)
    (unitCounts options.file [firstDeclarations options.file u₁ next] u₂ later) inRow.later_eq.le
  refine ⟨ρ, members, compileAfter_silent inRow.isScript noErrors₁,
    compileAfter_silent inRow.isScript noErrors₂, fun name isSecond => (among isSecond).1,
    fun name isSecond declared => ?_, numbers⟩
  exact (among isSecond).2 (bindUnit_from.mem_names_iff.2 declared)

/-- Joined scripts have no errors either, and their bodies are those of both. -/
theorem joined (inRow : InRow options u₁ u₂ next later c₁ c₂)
    (joining : Joining ρ options.file u₁ u₂ w next later) :
    let c := (compileAfter options [] [] w next).1
    c.diagnostics.hasErrors = false ∧
      c.program.bodies = (fns₁ options u₁ next).rename ρ ++ (fns₂ options u₁ u₂ next later).rename ρ ++
        [(scriptEntry options.file [] w next, Body.close .void
          ((code₁ options u₁ next).rename ρ ++ (code₂ options u₁ u₂ next later).rename ρ))] := by
  intro c
  have noErrors₁ := inRow.noErrors₁
  have noErrors₂ := inRow.noErrors₂
  have isFirst : (compileAfter options [] [] u₁ next).1 = c₁ := by rw [inRow.first]
  rw [← isFirst] at noErrors₁
  rw [← inRow.second, inRow.declarations₁] at noErrors₂
  obtain ⟨bodies, noReports⟩ := joining.lowered options (options.file <|> w.file)
    (options.file <|> u₁.file) (options.file <|> u₂.file)
  constructor
  · refine compileAfter_noErrors_of ?_ ?_
    · rw [inRow.isScript]
      exact joining.noErrors
    · have start : (bindUnit true options.file [] w next).2 =
        (unitCounts options.file [] w next).loweredAt next := bodiesPass_loweredAt
      rw [inRow.isScript, start, bindUnit_script, lowerBodies_withEntry inRow.keeps _ rfl]
      exact noReports (compileAfter_noReports inRow.isScript inRow.keeps noErrors₁)
        (compileAfter_noReports inRow.isScript inRow.keeps noErrors₂)
  · rw [(compileAfter_script inRow.isScript inRow.keeps).1, joining.scriptCode_eq]
    exact congrArg (· ++ _) bodies

/-- All declared functions of the first program are functions of its script. -/
theorem declared₁ (inRow : InRow options u₁ u₂ next later c₁ c₂) :
    ∀ q ∈ c₁.program.units.flatten, q.1.declaration.isSome = true → q ∈ fns₁ options u₁ next := by
  have isFirst : (compileAfter options [] [] u₁ next).1 = c₁ := by rw [inRow.first]
  have units : c₁.program.units.flatten = fns₁ options u₁ next ++
      [(scriptEntry options.file [] u₁ next, Body.close .void (code₁ options u₁ next))] := by
    have bodies := (@compileAfter_script options [] [] u₁ next inRow.isScript inRow.keeps).1
    rw [← isFirst, ← bodies]
    exact List.append_nil _
  intro q member isDeclared
  rw [units] at member
  rcases List.mem_append.1 member with isFn | isEntry
  · exact isFn
  · obtain rfl := List.mem_singleton.1 isEntry
    contradiction

theorem declared₂ (inRow : InRow options u₁ u₂ next later c₁ c₂) :
    ∀ q ∈ c₂.program.units.flatten, q.1.declaration.isSome = true →
      q ∈ fns₁ options u₁ next ∨ q ∈ fns₂ options u₁ u₂ next later := by
  have units : c₂.program.units.flatten = (fns₂ options u₁ u₂ next later ++
      [(scriptEntry options.file [firstDeclarations options.file u₁ next] u₂ later,
        Body.close .void (code₂ options u₁ u₂ next later))]) ++ c₁.program.units.flatten := by
    have bodies := (@compileAfter_script options [c₁.declarations] c₁.program.units u₂ later
      inRow.isScript inRow.keeps).1
    rw [inRow.declarations₁] at bodies
    rw [← inRow.second, inRow.declarations₁, ← bodies]
    rfl
  intro q member isDeclared
  rw [units] at member
  rcases List.mem_append.1 member with own | old
  · rcases List.mem_append.1 own with isFn | isEntry
    · exact .inr isFn
    · obtain rfl := List.mem_singleton.1 isEntry
      contradiction
  · exact .inl (inRow.declared₁ q old isDeclared)

/-- What the scripts do in a row, the joined one does at once. -/
theorem row (inRow : InRow options u₁ u₂ next later c₁ c₂)
    (joining : Joining ρ options.file u₁ u₂ w next later) :
    let c := (compileAfter options [] [] w next).1
    Program.Row ρ c₁.program c₂.program c.program (Callee c₁.program.units) (Callee c₂.program.units)
      (Callee c.program.units) (code₁ options u₁ next) (code₂ options u₁ u₂ next later) := by
  intro c
  obtain ⟨noErrors, bodies⟩ := inRow.joined joining
  have isFirst : (compileAfter options [] [] u₁ next).1 = c₁ := by rw [inRow.first]
  have isLater : (compileAfter options [] [] u₁ next).2 = later := by rw [inRow.first]
  have catalogued₁ : Catalogued [c₁.declarations] c₁.program.units later := by
    have catalogued := (Catalogued.start next).compileAfter options u₁
    dsimp only at catalogued
    rw [isFirst, isLater] at catalogued
    exact catalogued
  have catalogued₂ := catalogued₁.compileAfter options u₂
  dsimp only at catalogued₂
  rw [inRow.second] at catalogued₂
  have catalogued := (Catalogued.start next).compileAfter options w
  have starts₁ := compileAfter_starts (u := u₁) (Catalogued.start next) inRow.isScript inRow.keeps
    (isFirst ▸ inRow.noErrors₁)
  have starts₂ := compileAfter_starts (u := u₂) catalogued₁ inRow.isScript inRow.keeps
    (inRow.second ▸ inRow.noErrors₂)
  have starts := compileAfter_starts (Catalogued.start next) inRow.isScript inRow.keeps noErrors
  dsimp only at starts₁ starts₂ starts
  rw [isFirst] at starts₁
  rw [inRow.second, inRow.declarations₁] at starts₂
  rw [joining.scriptCode_eq] at starts
  have has {q : Fn × Body}
      (isFn : q ∈ fns₁ options u₁ next ∨ q ∈ fns₂ options u₁ u₂ next later) :
      (q.1.rename ρ, q.2.rename ρ) ∈ c.program.units.flatten := by
    refine List.mem_append_left _ ?_
    rw [bodies]
    refine List.mem_append_left _ (List.mem_append.2 ?_)
    exact isFn.imp List.mem_map_of_mem List.mem_map_of_mem
  refine ⟨catalogued₁.renames catalogued fun q member isDeclared =>
      has (.inl (inRow.declared₁ q member isDeclared)),
    catalogued₂.renames catalogued fun q member isDeclared =>
      has (inRow.declared₂ q member isDeclared), starts₁, starts₂, starts,
    scriptCode_staysOutside (List.forall_mem_nil _) (List.forall_mem_nil _) joining.first, ?_⟩
  have once : c.program.bodies.definitions.Nodup :=
    (compileAfter_minted (.nil (Nat.le_refl next))).nodup
  rw [bodies, Bodies.definitions, List.flatMap_append] at once
  have own := (List.nodup_append.1 once).2.1
  rw [List.flatMap_singleton, Body.definitions_close] at own
  exact own

theorem vars (inRow : InRow options u₁ u₂ next later c₁ c₂)
    (joining : Joining ρ options.file u₁ u₂ w next later) :
    (compileAfter options [] [] w next).1.declarations.vars =
      (c₁.declarations.vars ++ c₂.declarations.vars).map (Var.rename ρ) := by
  rw [compileAfter_eq, inRow.isScript, inRow.declarations₁, inRow.declarations₂]
  exact joining.vars

end Compilation.InRow

namespace Compilation

/-- The last compilation does what the two others do in a row, under other numbers from `start` on:
it gives the variables of both the same values, it does the same with the host, and it ends for the
same reason as the second one. This is said of runs in which the first one comes to its end. If it
takes some fuel for that, the last one, with `m` more, ends as the second one does with at least `m`,
and as it does with less if that is enough. -/
structure RunsAsRow (start : Nat) (number : Nat → Nat) (c₁ c₂ c : Compilation) : Prop where
  injective : Function.Injective number
  fixes : ∀ id < start, number id = id
  vars : c.declarations.vars =
    (c₁.declarations.vars ++ c₂.declarations.vars).map (Var.renumber number)
  outcomes : ∀ fuel globals host, (∀ id ∈ globals.keys, id < start) →
    let out := c₁.evaluate fuel globals host
    out.stop? = none → ∀ m,
      let whole := c.evaluate (fuel + m) globals host
      (∃ n, m ≤ n ∧ (c₂.evaluate n out.globals out.host).EndsAs number whole) ∧
        ∀ n ≤ m, (c₂.evaluate n out.globals out.host).stop? ≠ some .outOfFuel →
          (c₂.evaluate n out.globals out.host).EndsAs number whole

variable {options : Options} {u₁ u₂ w : Source.Unit} {next later : Nat} {c₁ c₂ : Compilation}

open Binding in
theorem InRow.runsAsRow (inRow : InRow options u₁ u₂ next later c₁ c₂) (members : Members u₁ u₂ w)
    (foreign : ∀ name ∈ c₂.declarations.names, name ∉ u₁.names ∧ name ∉ c₁.declarations.names) :
    let c := (compileAfter options [] [] w next).1
    c.diagnostics.hasErrors = false ∧ ∃ number, RunsAsRow next number c₁ c₂ c := by
  intro c
  obtain ⟨ρ, joining⟩ := inRow.exists_joining members foreign
  have fixes : ∀ id < next, ρ.own id = id := by
    intro id bound
    have within : id < (unitCounts options.file [] u₁ next).globalsAt next := by
      rw [UnitCounts.globalsAt]
      omega
    have moved := joining.numbers.start id within
    rw [Nat.zero_add] at moved
    exact moved
  have first : c₁.options = options := by
    have isFirst : (compileAfter options [] [] u₁ next).1 = c₁ := by rw [inRow.first]
    rw [← isFirst]
    rfl
  have second : c₂.options = options := by
    rw [← inRow.second]
    rfl
  refine ⟨(inRow.joined joining).1, ρ.own, ρ.injective, fixes, inRow.vars joining, ?_⟩
  intro fuel globals host known
  unfold evaluate
  rw [first, second]
  exact fun ended m => (inRow.row joining).ends options.maxCallDepth fuel (.same fixes known) host
    ended m

theorem evaluate_removeUnreachable (c : Compilation) (fuel : Nat) (globals : Store) (host : Host) :
    c.removeUnreachable.evaluate fuel globals host = c.evaluate fuel globals host :=
  c.program.evaluate_removeUnreachable c.options.maxCallDepth fuel globals host

/-- Removing unreachable code changes none of this. -/
theorem RunsAsRow.removeUnreachable {start : Nat} {number : Nat → Nat} {c : Compilation}
    (runs : RunsAsRow start number c₁ c₂ c) :
    RunsAsRow start number c₁.removeUnreachable c₂.removeUnreachable c.removeUnreachable where
  injective := runs.injective
  fixes := runs.fixes
  vars := runs.vars
  outcomes fuel globals host known := by
    simp only [evaluate_removeUnreachable]
    exact runs.outcomes fuel globals host known

/-- Where unreachable code is kept, two scripts in a row do what one does that has the members of
both. -/
theorem chain_keeping_runsAsRow (isScript : options.scriptMode = true)
    (keeps : options.removeUnreachable = false) (members : w.members = u₁.members ++ u₂.members)
    (chained : (chain options [u₁, u₂] next).1 = [c₁, c₂])
    (noErrors₁ : c₁.diagnostics.hasErrors = false) (noErrors₂ : c₂.diagnostics.hasErrors = false)
    (foreign : ∀ name ∈ c₂.declarations.names, name ∉ u₁.names ∧ name ∉ c₁.declarations.names) :
    let c := (compile options w next).1
    c.diagnostics.hasErrors = false ∧ ∃ number, RunsAsRow next number c₁ c₂ c := by
  have parts : Binding.Members u₁ u₂ w := by
    constructor
    · rw [Source.Unit.functions, members, List.filterMap_append]
      rfl
    · rw [Source.Unit.statements, members, List.filterMap_append]
      rfl
  rw [chain_pair] at chained
  obtain ⟨rfl, rest⟩ := List.cons.inj chained
  obtain rfl := (List.cons.inj rest).1
  have inRow : InRow options u₁ u₂ next (compile options u₁ next).2 (compile options u₁ next).1
      ((compile options u₁ next).1.continueWith u₂ (compile options u₁ next).2).1 :=
    ⟨isScript, keeps, rfl, rfl, noErrors₁, noErrors₂⟩
  exact inRow.runsAsRow parts foreign

/-- Compiling and running two scripts in a row is compiling and running one with the members of both.
If both have no errors in a row, and no name that the second one puts in the global scope occurs in
the first one, then the joined script has no errors. Where the first one runs to its end, the joined
one leaves the same values and the same host as the second one, and it ends with the same fault or
with none. -/
theorem chain_runs_as_joined (options : Options) (isScript : options.scriptMode = true)
    (u₁ u₂ w : Source.Unit) (next : Nat) (members : w.members = u₁.members ++ u₂.members)
    (c₁ c₂ : Compilation) (chained : (chain options [u₁, u₂] next).1 = [c₁, c₂])
    (noErrors₁ : c₁.diagnostics.hasErrors = false) (noErrors₂ : c₂.diagnostics.hasErrors = false)
    (foreign : ∀ name ∈ c₂.declarations.names, name ∉ u₁.names ∧ name ∉ c₁.declarations.names) :
    let c := (compile options w next).1
    c.diagnostics.hasErrors = false ∧ ∃ number, RunsAsRow next number c₁ c₂ c := by
  cases removes : options.removeUnreachable with
  | false =>
    exact chain_keeping_runsAsRow isScript removes members chained noErrors₁ noErrors₂ foreign
  | true =>
    have same : options.removing true = options := by
      rw [Options.removing, ← removes]
    rw [← same, chain_removing, chain_pair] at chained
    obtain ⟨rfl, rest⟩ := List.cons.inj chained
    obtain rfl := (List.cons.inj rest).1
    have whole : (compile options w next).1 =
        (compile (options.removing false) w next).1.removeUnreachable := by
      have removed := congrArg Prod.fst (compileAfter_removing options [] [] w next)
      rw [same] at removed
      exact removed
    rw [whole]
    have isScript' : (options.removing false).scriptMode = true := isScript
    obtain ⟨noErrors, number, runs⟩ := chain_keeping_runsAsRow isScript' rfl members
      (chain_pair _ u₁ u₂ next) noErrors₁ noErrors₂ foreign
    exact ⟨noErrors, number, runs.removeUnreachable⟩

end Compilation

namespace Tally

open Source

def first : Source.Unit := (Sketch.Unit.place ⟨none, [
  .statement (.declare .varKeyword "total" none (.literal (.int 1))),
  .function ⟨"add", [("n", "int")], none, [
    .expr (.assign "total" .equals (.binary (.name "total") .plus (.name "n")))]⟩,
  .statement (.expr (.call "add" [.literal (.int 2)]))]⟩ .start).1

def second : Source.Unit := (Sketch.Unit.place ⟨none, [
  .statement (.expr (.call "add" [.literal (.int 3)])),
  .statement (.declare .varKeyword "twice" none
    (.binary (.name "total") .star (.literal (.int 2)))),
  .function ⟨"show", [], none, [.expr (.call "print" [.name "twice"])]⟩,
  .statement (.expr (.call "show" []))]⟩ .start).1

def joined : Source.Unit := ⟨first.mark, none, first.members ++ second.members⟩

end Tally

/-- A script that uses a variable and a function of an earlier one may be joined with it. -/
theorem tally_joined : ∃ c₁ c₂,
    (Compilation.chain .script [Tally.first, Tally.second] 0).1 = [c₁, c₂] ∧
      c₂.declarations.names = ["show", "twice"] ∧
      (c₁.evaluate 100 .empty .empty).stop?.isNone = true ∧
      let c := (Compilation.compile .script Tally.joined 0).1
      c.diagnostics.hasErrors = false ∧ ∃ number, Compilation.RunsAsRow 0 number c₁ c₂ c := by
  have chained := Compilation.chain_pair .script Tally.first Tally.second 0
  have compiled : ∀ c ∈ (Compilation.chain .script [Tally.first, Tally.second] 0).1,
      c.diagnostics.hasErrors = false := by decide +kernel
  rw [chained] at compiled
  obtain ⟨noErrors₁, rest⟩ := List.forall_mem_cons.1 compiled
  have noErrors₂ := List.forall_mem_singleton.1 rest
  refine ⟨_, _, chained, by decide +kernel, by decide +kernel, ?_⟩
  exact Compilation.chain_runs_as_joined .script rfl Tally.first Tally.second Tally.joined 0 rfl _ _
    chained noErrors₁ noErrors₂ (by decide +kernel)

end ScriptLang
