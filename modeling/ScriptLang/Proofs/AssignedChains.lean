import ScriptLang.Proofs.AssignedRuns

/-! In a chain of units without errors, an activation has assigned the variables of its own that it
reads. A variable that is declared without a block, as the branch of an `if` or the body of a
`while`, is an exception: it is in scope where the declaration has not run. -/

namespace ScriptLang

namespace Compilation

section

variable {options : Options}

/-- The variables that units declare for all functions are global. -/
theorem boundAll_declaresGlobals (us : List Source.Unit) {history : List Declarations}
    {earlier : List Bodies} {next : Nat} (vars : ∀ d ∈ history, ∀ v ∈ d.vars, v.isGlobal = true) :
    ∀ b ∈ boundAll options history earlier us next, ∀ v ∈ b.declarations.vars,
      v.isGlobal = true := by
  refine forall_mem_boundAll us (I := fun history => ∀ d ∈ history, ∀ v ∈ d.vars, v.isGlobal = true)
    (fun u next vars => ?_) vars
  have unit := bindUnit_declaresGlobals vars options.scriptMode options.file u next
  exact ⟨unit, List.forall_mem_cons.2 ⟨unit, vars⟩⟩

theorem chain_parameters (options : Options) (us : List Source.Unit) (next : Nat) :
    ∀ c ∈ (chain options us next).1, ∀ q ∈ c.program.bodies, ∀ v ∈ q.1.parameters,
      v.isGlobal = false := by
  refine forall_mem_chain options us next fun options history earlier u next q member v => ?_
  rw [compileAfter_eq] at member
  have key := List.mem_map_of_mem (f := Prod.fst) member
  rw [lowerBodies_keys] at key
  have shape := (bindUnit_tracked_anyway options.scriptMode options.file u).shape q.1 key
  exact fun isParameter => (shape.2 v isParameter).isLocal

variable {us : List Source.Unit} {next : Nat}

theorem chain_assigns
    (noErrors : ∀ c ∈ (chain options us next).1, c.diagnostics.hasErrors = false) :
    ∀ c ∈ (chain options us next).1,
      c.program.Assigns (Unsettled (boundChain options us next)) := by
  have mentions : ∀ c ∈ (compileAll options [] [] us next).1, ∀ q ∈ c.program.bodies,
      MentionsAssigned (Unsettled (boundChain options us next)) q :=
    compileAll_mentionsAssigned us (List.forall_mem_nil _) fun _ => id
  have parameters := chain_parameters options us next
  intro c unit
  have among := unit
  rw [chain_eq_compileAll] at parameters among
  have code := forall_mem_units options [] [] us next (List.forall_mem_nil _) mentions
  have parameters := forall_mem_units (Q := fun q => ∀ v ∈ q.1.parameters, v.isGlobal = false)
    options [] [] us next (List.forall_mem_nil _) parameters
  refine ⟨code c among, parameters c among, fun e body isEntry found => ?_⟩
  obtain ⟨f, _, member, none, _⟩ := chain_entry noErrors unit isEntry found
  exact ⟨f, List.mem_append_left _ member, none⟩

end

/-- What holds of the variables at the points of single runs holds while compilations run in a
row. -/
theorem Reaches.ready {known exempt : Var → Prop} {fuel : Nat} {c : Compilation} {point : Point}
    {globals : Store} {host : Host} {cs : List Compilation}
    (reached : Reaches fuel c point globals host cs) (safe : ∀ d ∈ cs, d.Safe known)
    (unique : ToldApart known) (typed : globals.Typed known)
    (assigns : ∀ d ∈ cs, d.program.Assigns exempt) : point.task.Ready exempt point.state := by
  induction reached with
  | here reached =>
    have first := (safe _ List.mem_cons_self).program
    exact reached.ready first unique (assigns _ List.mem_cons_self) typed
  | later _ ih =>
    obtain ⟨first, rest⟩ := List.forall_mem_cons.1 safe
    exact ih rest (evaluate_keeps first unique typed fuel _).1 (List.forall_mem_cons.1 assigns).2

/-- Where a run of a chain without errors is about to read a variable that it does not share with
other units, the activation has assigned the variable, and the read gives a value. It is no
variable declared without a block in a branch of an `if` or in the body of a `while`. -/
theorem chain_reads_assigned (options : Options) (us : List Source.Unit) (next : Nat)
    (noErrors : ∀ c ∈ (chain options us next).1, c.diagnostics.hasErrors = false) (fuel : Nat)
    (host : Host) {c : Compilation} {point : Point}
    (reached : Reaches fuel c point .empty host (chain options us next).1) {v : Var}
    (isRead : point.task = .eval (.var v))
    (inside : v.isGlobal = false ∨ ∀ b ∈ boundChain options us next, v ∉ b.declarations.vars)
    (inBlock : ∀ b ∈ boundChain options us next, ∀ p ∈ b.bodies, v ∉ Stmt.bareOf p.2) :
    point.state.Assigned v ∧
      ∃ value, c.program.perform c.options.maxCallDepth point.fuel point.task point.state =
        .ok [value] point.state := by
  obtain ⟨known, census, safe⟩ := chain_safe options us next noErrors
  have ready := reached.ready safe census.unique .empty (chain_assigns noErrors)
  have settled : ¬Unsettled (boundChain options us next) v := by
    rintro ⟨b, member, declared | ⟨p, isBody, isBare⟩⟩
    · rcases inside with isLocal | notDeclared
      · have isGlobal := boundAll_declaresGlobals us (List.forall_mem_nil _) b member v declared
        simp [isLocal] at isGlobal
      · exact notDeclared b member declared
    · exact inBlock b member p isBody isBare
  rw [isRead] at ready
  have assigned : point.state.Assigned v :=
    (ready v (List.mem_singleton_self v)).resolve_left settled
  refine ⟨assigned, ?_⟩
  obtain ⟨value, given⟩ :=
    assigned.eval_var (c.program.callee c.options.maxCallDepth point.fuel)
  rw [isRead]
  exact ⟨value, Run.bind_of_ok _ given⟩

end Compilation

namespace CheckedFlag

open Source

/-- `function main() { var ready = true if ready { print("go") } }` -/
def unit : Source.Unit := (Sketch.Unit.place ⟨none, [
  .function ⟨"main", [], none, [
    .declare .varKeyword "ready" none (.literal (.bool true)),
    .ifThen (.name "ready") (.block [.expr (.call "print" [.literal (.string "go")])])]⟩]⟩ .start).1

def compiled : Compilation := (Compilation.compile .standard unit 0).1

def body : Body := (compiled.program.entry.bind compiled.program.body?).getD []

def initial : State := { globals := .empty, frames := [.empty], host := .empty, last := none }

def declares : Answer Next :=
  Run.stmt (compiled.program.callee compiled.options.maxCallDepth 99) body true 0
    (body[0]?.getD (.ret none)) initial

def tested? : Option Stmt → Option Stmt → Option Var
  | some _, some (.gotoIf _ (.var v) _) => some v
  | _, _ => none

theorem of_tested? {s t : Option Stmt} {v : Var} (isTested : tested? s t = some v) :
    (∃ stmt, s = some stmt) ∧ ∃ l value, t = some (.gotoIf l (.var v) value) := by
  unfold tested? at isTested
  split at isTested
  · obtain rfl := Option.some.inj isTested
    exact ⟨⟨_, rfl⟩, _, _, rfl⟩
  · contradiction

theorem reaches_test {v : Var} (isTested : tested? body[0]? body[1]? = some v) :
    Compilation.Reaches 100 compiled ⟨98, .eval (.var v), declares.state⟩ .empty .empty
      (Compilation.chain .standard [unit] 0).1 := by
  obtain ⟨⟨stmt, get⟩, l, value, isTest⟩ := of_tested? isTested
  have goes : Answer.value? declares = some (.goto 1) := by decide +kernel
  have starts : compiled.program.StartsAt 100 .empty .empty ⟨100, .run body 0, initial⟩ :=
    Program.startsAt (by decide +kernel) (by decide +kernel) 100 .empty .empty
  have given : Run.stmt (compiled.program.callee compiled.options.maxCallDepth 99) body
      initial.inEntry 0 stmt initial = .ok (.goto 1) declares.state := by
    have same : declares = Run.stmt (compiled.program.callee compiled.options.maxCallDepth 99) body
        true 0 stmt initial := by
      unfold declares
      rw [get]
      rfl
    exact same ▸ Answer.ok_of_value? goes
  have declared : compiled.program.LeadsInto compiled.options.maxCallDepth
      ⟨100, .run body 0, initial⟩ ⟨99, .run body 1, declares.state⟩ := .next get given
  have tested : compiled.program.LeadsInto compiled.options.maxCallDepth
      ⟨99, .run body 1, declares.state⟩ ⟨98, .eval (.var v), declares.state⟩ := .tested isTest
  rw [Compilation.chain_single]
  exact .here ⟨_, starts, .tail (.single declared) tested⟩

end CheckedFlag

/-- When `main` tests its variable, it has declared it. -/
theorem checkedFlag_is_assigned :
    ∃ point v, Compilation.Reaches 100 CheckedFlag.compiled point .empty .empty
        (Compilation.chain .standard [CheckedFlag.unit] 0).1 ∧
      point.task = .eval (.var v) ∧ v.name = "ready" ∧ v.isGlobal = false ∧ point.state.Assigned v := by
  have noErrors : ∀ c ∈ (Compilation.chain .standard [CheckedFlag.unit] 0).1,
      c.diagnostics.hasErrors = false := by decide +kernel
  have found : ∃ v ∈ CheckedFlag.tested? CheckedFlag.body[0]? CheckedFlag.body[1]?,
      v.name = "ready" ∧ v.isGlobal = false ∧
      ∀ b ∈ Compilation.boundChain .standard [CheckedFlag.unit] 0, ∀ p ∈ b.bodies,
        v ∉ Stmt.bareOf p.2 := by decide +kernel
  obtain ⟨v, isTested, named, isLocal, inBlock⟩ := found
  have reached := CheckedFlag.reaches_test isTested
  have assigned := (Compilation.chain_reads_assigned .standard [CheckedFlag.unit] 0 noErrors 100
    .empty reached rfl (.inl isLocal) inBlock).1
  exact ⟨_, v, reached, rfl, named, isLocal, assigned⟩

namespace BareBranch

open Source

/-- ```
function f() {
    var c = false
    if c var x = 1
    print(x)
}
f()
``` -/
def unit : Source.Unit := (Sketch.Unit.place ⟨none, [
  .function ⟨"f", [], none, [
    .declare .varKeyword "c" none (.literal (.bool false)),
    .ifThen (.name "c") (.declare .varKeyword "x" none (.literal (.int 1))),
    .expr (.call "print" [.name "x"])]⟩,
  .statement (.expr (.call "f" []))]⟩ .start).1

def outcomes : List Outcome :=
  Compilation.evaluateAll 100 .empty .empty (Compilation.chain .standard [unit] 0).1

def unassigned? (out : Outcome) : Option String :=
  match out.result with
  | .error (.fault (.defect (.unassigned name))) => some name
  | _ => none

theorem of_unassigned? {out : Outcome} {name : String} (ends : unassigned? out = some name) :
    out.result = .error (.fault (.defect (.unassigned name))) := by
  unfold unassigned? at ends
  split at ends
  · rename_i isUnassigned
    rw [isUnassigned, Option.some.inj ends]
  · contradiction

end BareBranch

/-- A variable declared without a block in a branch is in scope behind the branch. If the branch is
not taken, a function without errors reads its own variable before it has assigned it. -/
theorem bareBranch_reads_unassigned :
    (∀ c ∈ (Compilation.chain .standard [BareBranch.unit] 0).1, c.diagnostics.hasErrors = false) ∧
      (∃ b ∈ Compilation.boundChain .standard [BareBranch.unit] 0, ∃ p ∈ b.bodies, p.1.name = "f" ∧
        ∃ v ∈ Stmt.bareOf p.2, v.name = "x" ∧ v.isGlobal = false) ∧
      ∃ out ∈ BareBranch.outcomes, out.result = .error (.fault (.defect (.unassigned "x"))) := by
  have ends : ∃ out ∈ BareBranch.outcomes, BareBranch.unassigned? out = some "x" := by
    decide +kernel
  obtain ⟨out, member, isUnassigned⟩ := ends
  exact ⟨by decide +kernel, by decide +kernel, out, member,
    BareBranch.of_unassigned? isUnassigned⟩

end ScriptLang
