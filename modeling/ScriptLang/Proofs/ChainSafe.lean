import ScriptLang.Proofs.Chains
import ScriptLang.Proofs.CompiledSafe

/-! Each unit of a chain is compiled behind the ones before it. What is known of those makes
the next one safe, if it has no errors, and is then known of all of them. -/

namespace ScriptLang

def HasBody (units : List Bodies) (f : Fn) : Prop := ∃ body, (f, body) ∈ units.flatten

/-- A call of the function finds a body, or is one of a builtin. -/
def Callable (units : List Bodies) (f : Fn) : Prop := f.builtin.isSome = true ∨ HasBody units f

theorem HasBody.cons {units : List Bodies} {f : Fn} (bodies : Bodies) (has : HasBody units f) :
    HasBody (bodies :: units) f := by
  obtain ⟨body, member⟩ := has
  exact ⟨body, List.mem_append_right bodies member⟩

theorem HasBody.head {units : List Bodies} {bodies : Bodies} {f : Fn}
    (member : f ∈ bodies.map Prod.fst) : HasBody (bodies :: units) f := by
  obtain ⟨p, within, rfl⟩ := List.mem_map.1 member
  exact ⟨p.2, List.mem_append_left _ within⟩

theorem Callable.cons {units : List Bodies} {f : Fn} (bodies : Bodies) (callable : Callable units f) :
    Callable (bodies :: units) f := callable.imp_right (HasBody.cons bodies)

/-- What the units of a chain have in common: their symbols are told apart by their numbers,
and their bodies are safe. -/
structure Linked (history : List Declarations) (units : List Bodies) (known : Var → Prop)
    (next : Nat) : Prop where
  vars : Census Var.id known next
  fns : Census Fn.id (HasBody units) next
  typed : ∀ d ∈ history, d.Hold Symbol.WellTyped
  declaredVars : ∀ d ∈ history, ∀ v ∈ d.vars, known v
  declaredFns : ∀ d ∈ history, ∀ f ∈ d.fns, Callable units f
  bodies : ∀ p ∈ units.flatten, FnSafe known (Callable units) p

theorem Linked.start (next : Nat) : Linked [] [] (fun _ => False) next := by
  have noBody (f : Fn) : ¬HasBody [] f := fun ⟨_, member⟩ => List.not_mem_nil member
  refine ⟨⟨fun _ => False.elim, fun _ _ => False.elim⟩, ⟨?_, ?_⟩, ?_, ?_, ?_, ?_⟩
  · exact fun f has => (noBody f has).elim
  · exact fun f _ has => (noBody f has).elim
  all_goals exact fun _ member => absurd member List.not_mem_nil

namespace Program

structure Safe (known : Var → Prop) (p : Program) : Prop where
  bodies : ∀ q ∈ p.units.flatten, FnSafe known (Callable p.units) q
  unique : ∀ f g, HasBody p.units f → HasBody p.units g → f.id = g.id → f = g
  entry : ∀ e, p.entry = some e → ∃ f, HasBody p.units f ∧ f.id = e.id

theorem Safe.mono {known more : Var → Prop} {p : Program} (safe : p.Safe known)
    (wider : ∀ v, known v → more v) : p.Safe more :=
  { safe with bodies := fun q member => (safe.bodies q member).mono wider fun _ => id }

theorem mem_of_body? {p : Program} {f : Fn} {body : Body} (found : p.body? f = some body) :
    ∃ g, (g, body) ∈ p.units.flatten ∧ g.id = f.id := by
  obtain ⟨bodies, member, given⟩ := List.exists_of_findSome?_eq_some found
  obtain ⟨q, first, rfl⟩ := Option.map_eq_some_iff.1 given
  have same := List.find?_some first
  exact ⟨q.1, List.mem_flatten_of_mem member (List.mem_of_find?_eq_some first), by simpa using same⟩

/-- A function that some unit has a body for is found by its number. -/
theorem body?_of_hasBody {p : Program} {f g : Fn} (has : HasBody p.units g) (same : g.id = f.id) :
    ∃ body, p.body? f = some body := by
  obtain ⟨body, member⟩ := has
  obtain ⟨bodies, unit, within⟩ := List.mem_flatten.1 member
  have found : (p.body? f).isSome = true := by
    refine List.findSome?_isSome_iff.2 ⟨bodies, unit, ?_⟩
    rw [Bodies.body?, Option.isSome_map, List.find?_isSome]
    exact ⟨(g, body), within, by simpa using same⟩
  exact Option.isSome_iff_exists.1 found

/-- A call finds the body that belongs to the function. -/
theorem Safe.found {known : Var → Prop} {p : Program} (safe : p.Safe known) {f : Fn}
    (has : HasBody p.units f) : ∃ body, p.body? f = some body ∧ (f, body) ∈ p.units.flatten := by
  obtain ⟨body, found⟩ := body?_of_hasBody has rfl
  obtain ⟨g, member, same⟩ := mem_of_body? found
  obtain rfl := safe.unique g f ⟨body, member⟩ has same
  exact ⟨body, found, member⟩

theorem Safe.body? {known : Var → Prop} {p : Program} (safe : p.Safe known) {f : Fn}
    (has : HasBody p.units f) :
    ∃ body, p.body? f = some body ∧ FnSafe known (Callable p.units) (f, body) := by
  obtain ⟨body, found, member⟩ := safe.found has
  exact ⟨body, found, safe.bodies _ member⟩

end Program

namespace Diagnostics

theorem hasErrors_foldl_add (reports : List Diagnostic) (ds : Diagnostics) :
    (reports.foldl add ds).hasErrors = (ds.hasErrors || reports.any Diagnostic.isError) := by
  induction reports generalizing ds with
  | nil => simp
  | cons d reports ih =>
    rw [List.foldl_cons, ih]
    simp [hasErrors, Bool.or_assoc]

theorem hasErrors_sort (ds : Diagnostics) : ds.sort.hasErrors = ds.hasErrors := by
  have same : ∀ d, d ∈ ds.items.mergeSort le ↔ d ∈ ds.items := fun d => List.mem_mergeSort
  rw [Bool.eq_iff_iff]
  simp only [hasErrors, sort, List.any_eq_true, same]

end Diagnostics

namespace Compilation

/-- A unit that is compiled without errors is bound without errors, and lowering reports none. -/
theorem compileAfter_noErrors {options : Options} {history : List Declarations}
    {earlier : List Bodies} {u : Source.Unit} {next : Nat}
    (noErrors : (compileAfter options history earlier u next).1.diagnostics.hasErrors = false) :
    let bound := bindUnit options.scriptMode options.file history u next
    bound.1.declarations.diagnostics.hasErrors = false ∧
      (lowerBodies options (options.file <|> u.file) u bound.1.bodies bound.2).1.2.any
        Diagnostic.isError = false := by
  rw [compileAfter_eq] at noErrors
  simpa only [diagnostics, Diagnostics.hasErrors_sort, Diagnostics.hasErrors_foldl_add,
    Bool.or_eq_false_iff] using noErrors

/-- A unit that is compiled without errors behind safe ones is safe. -/
theorem compileAfter_linked {history : List Declarations} {units : List Bodies}
    {known : Var → Prop} {next : Nat} (linked : Linked history units known next) (options : Options)
    (u : Source.Unit)
    (noErrors : (compileAfter options history units u next).1.diagnostics.hasErrors = false) :
    ∃ more : Var → Prop, (∀ v, known v → more v) ∧
      (∀ v, Binding.unitVars (bindUnit options.scriptMode options.file history u next).1 v →
        more v) ∧
      Linked ((compileAfter options history units u next).1.declarations :: history)
        (compileAfter options history units u next).1.program.units more
        (compileAfter options history units u next).2 ∧
      (compileAfter options history units u next).1.program.Safe more := by
  obtain ⟨boundNoErrors, noReports⟩ := compileAfter_noErrors noErrors
  rw [compileAfter_eq]
  dsimp only [Program.units]
  have typed := bindUnit_typed linked.typed boundNoErrors
  obtain ⟨tracked, more, wider, census, knows⟩ := bindUnit_tracked options.scriptMode options.file u
    linked.vars linked.declaredVars linked.declaredFns fun f isBuiltin => .inl isBuiltin
  obtain ⟨moreFns, widerFns, censusFns, knowsFns⟩ :=
    @bindUnit_trackedFn options.scriptMode options.file history u next _ linked.fns
  generalize bindUnit options.scriptMode options.file history u next = bound at *
  have boundSafe : ∀ p ∈ bound.1.bodies,
      BoundSafe more (fun f => Callable units f ∨ f ∈ bound.1.bodies.map Prod.fst) p :=
    fun p member => ⟨(typed.bodies p member).1, tracked.jumps p member,
      fun v within => knows v (.inl ⟨p, member, .inl within⟩), tracked.calls p member⟩
  obtain ⟨most, wider', census', safe⟩ := lowerBodies_safe census boundSafe
    (fun p member => (typed.bodies p member).2)
    fun d member => Bool.eq_false_iff.2 (List.any_eq_false.1 noReports d member)
  have le : bound.2 ≤ (lowerBodies options (options.file <|> u.file) u bound.1.bodies bound.2).2 :=
    le_lowerBodies _ _
  have sameKeys : (lowerBodies options (options.file <|> u.file) u bound.1.bodies
      bound.2).1.1.map Prod.fst = bound.1.bodies.map Prod.fst := lowerBodies_keys _ _
  generalize lowerBodies options (options.file <|> u.file) u bound.1.bodies bound.2 = lowered at *
  have widest (v : Var) (isKnown : known v) : most v := wider' v (wider v isKnown)
  have isCallable (f : Fn) (calls : Callable units f ∨ f ∈ bound.1.bodies.map Prod.fst) :
      Callable (lowered.1.1 :: units) f := by
    rcases calls with old | new
    · exact old.cons lowered.1.1
    · exact .inr (.head (sameKeys ▸ new))
  have bodies : ∀ q ∈ (lowered.1.1 :: units).flatten,
      FnSafe most (Callable (lowered.1.1 :: units)) q := by
    intro q member
    rcases List.mem_append.1 member with new | old
    · have key : q.1 ∈ bound.1.bodies.map Prod.fst := sameKeys ▸ List.mem_map_of_mem new
      obtain ⟨p, within, same⟩ := List.mem_map.1 key
      refine ⟨(safe q new).mono (fun _ => id) isCallable, same ▸ (typed.bodies p within).2,
        (tracked.shape q.1 key).1, fun v isParameter => ?_⟩
      exact wider' v (knows v (.inl ⟨p, within, .inr (same ▸ isParameter)⟩))
    · exact (linked.bodies q old).mono widest fun _ callable => callable.cons lowered.1.1
  have fns : Census Fn.id (HasBody (lowered.1.1 :: units)) lowered.2 := by
    refine (censusFns.le le).sub fun f has => ?_
    obtain ⟨body, member⟩ := has
    rcases List.mem_append.1 member with new | old
    · exact knowsFns f (sameKeys ▸ List.mem_map_of_mem new)
    · exact widerFns f ⟨body, old⟩
  refine ⟨most, widest, fun v isVar => wider' v (knows v isVar), ?_, bodies, fns.unique,
    fun e given => ?_⟩
  · refine ⟨census', fns, List.forall_mem_cons.2 ⟨typed.declared, linked.typed⟩,
      List.forall_mem_cons.2 ⟨?_, ?_⟩, List.forall_mem_cons.2 ⟨?_, ?_⟩, bodies⟩
    · exact fun v member => wider' v (knows v (.inr member))
    · exact fun d within v member => widest v (linked.declaredVars d within v member)
    · exact fun f member => isCallable f (.inr (tracked.fns f member))
    · exact fun d within f member => isCallable f (.inl (linked.declaredFns d within f member))
  · obtain ⟨f, member, same⟩ := tracked.entry e given
    exact ⟨f, .head (sameKeys ▸ member), same⟩

structure Safe (known : Var → Prop) (c : Compilation) : Prop where
  program : c.program.Safe known
  declared : ∀ v ∈ c.declarations.vars, known v

theorem Safe.mono {known more : Var → Prop} {c : Compilation} (safe : c.Safe known)
    (wider : ∀ v, known v → more v) : c.Safe more :=
  ⟨safe.program.mono wider, fun v member => wider v (safe.declared v member)⟩

/-- Units that are compiled in a row without errors behind safe ones are safe for one census of
variables, which also has the variables of the bound units. -/
theorem compileAll_linked (options : Options) (us : List Source.Unit) {history : List Declarations}
    {earlier : List Bodies} {known : Var → Prop} {next : Nat}
    (linked : Linked history earlier known next)
    (noErrors : ∀ c ∈ (compileAll options history earlier us next).1,
      c.diagnostics.hasErrors = false) :
    ∃ more : Var → Prop, (∀ v, known v → more v) ∧
      Census Var.id more (compileAll options history earlier us next).2 ∧
      (∀ c ∈ (compileAll options history earlier us next).1, c.Safe more) ∧
      ∀ b ∈ boundAll options history earlier us next, ∀ v, Binding.unitVars b v → more v := by
  induction us generalizing history earlier known next with
  | nil => exact ⟨known, fun _ => id, linked.vars, List.forall_mem_nil _, List.forall_mem_nil _⟩
  | cons u us ih =>
    obtain ⟨first, rest⟩ := List.forall_mem_cons.1 noErrors
    obtain ⟨more, wider, knows, linked', safe⟩ := compileAfter_linked linked options u first
    obtain ⟨most, wider', census, safe', knows'⟩ := ih linked' rest
    refine ⟨most, fun v isKnown => wider' v (wider v isKnown), census, ?_, ?_⟩
    · refine List.forall_mem_cons.2 ⟨Safe.mono ⟨safe, ?_⟩ wider', safe'⟩
      exact linked'.declaredVars _ List.mem_cons_self
    · exact List.forall_mem_cons.2 ⟨fun v isVar => wider' v (knows v isVar), knows'⟩

/-- The units of a chain without errors are safe for one census of variables. -/
theorem chain_safe (options : Options) (us : List Source.Unit) (next : Nat)
    (noErrors : ∀ c ∈ (chain options us next).1, c.diagnostics.hasErrors = false) :
    ∃ known : Var → Prop, Census Var.id known (chain options us next).2 ∧
      ∀ c ∈ (chain options us next).1, c.Safe known := by
  rw [chain_eq_compileAll] at noErrors ⊢
  obtain ⟨known, _, census, safe, _⟩ := compileAll_linked options us (Linked.start next) noErrors
  exact ⟨known, census, safe⟩

end Compilation

end ScriptLang
