import ScriptLang.Proofs.BindingPasses
import ScriptLang.Proofs.CompiledWrites
import ScriptLang.Proofs.CompiledNumbers

/-! Each declared function of a unit gets one body, which is bound from its own statements, and the
global statements become the body of the entry function. What a body calls is a builtin, or it has
a body in its unit or in an earlier one. -/

namespace ScriptLang

namespace Binding

/-- In some scope the source statement is bound to this statement. -/
def BindsTo (c : BindContext) (isGlobal : Bool) (source : Source.Stmt) (bound : Stmt) : Prop :=
  ∃ scope state, (stmt c isGlobal scope source state).1.1 = bound

variable {c : BindContext} {scope : Scope} {file : Option String}

theorem stmts_bindTo (ss : List Source.Stmt) :
    Yields (stmts c scope ss) fun r => List.Forall₂ (BindsTo c false) ss r.1 := by
  induction ss generalizing scope with
  | nil => exact .pure .nil
  | cons s ss ih =>
    have first : Yields (stmt c false scope s) fun r => BindsTo c false s r.1 :=
      fun state => ⟨scope, state, rfl⟩
    exact first.bind fun bound bindsTo => ih.bind fun rest row => .pure (.cons bindsTo row)

theorem globals_bindTo (ss : List Source.Stmt) :
    Yields (globals c scope ss) fun r => List.Forall₂ (BindsTo c true) ss r.1 := by
  induction ss generalizing scope with
  | nil => exact .pure .nil
  | cons s ss ih =>
    have first : Yields (stmt c true scope s) fun r => BindsTo c true s r.1 :=
      fun state => ⟨scope, state, rfl⟩
    exact first.bind fun bound bindsTo => ih.bind fun rest row => .pure (.cons bindsTo row)

theorem returnType_gives (clause : Option Source.TypeClause) :
    Gives (returnType file clause) fun _ => True := by
  cases clause with
  | none => exact .pure trivial
  | some clause => exact (type?_gives clause).bind fun _ _ => .pure trivial

theorem declareFn_mintsFn (f : Source.Function) :
    Mints [] (declareFn file scope f) fun r => [r.1.id] := by
  have made (ps : List Var) (returns : Ty) :
      Mints [] (Bind.fresh (Fn.create f.name.text ps returns (some f.mark.id))) fun fn => [fn.id] :=
    .one (fun _ => rfl) fun _ => rfl
  rw [declareFn_eq]
  have noVars : ∀ v ∈ ([] : List Var), IsParameter v := List.forall_mem_nil _
  refine .tracked (parameters_tracks (S := fun _ => True) (fun _ _ => trivial) noVars f.parameters)
    fun ps _ => .given (returnType_gives f.returns) fun returns _ => ?_
  refine (made ps returns).bind fun fn => ?_
  cases scope.declare? f.name.text (.fn fn) with
  | none => exact .reported fun _ => .pure rfl
  | some scope' => exact .pure rfl

theorem declareFns_mintsFns (fs : List Source.Function) :
    Mints [] (declareFns file scope fs) fun r => r.1.map (·.1.id) := by
  induction fs generalizing scope with
  | nil => exact .pure rfl
  | cons f fs ih =>
    refine (declareFn_mintsFn f).bind fun r => ?_
    exact .andThen ih fun rest => .pure rfl

def IsBodyOf (c : BindContext) (p : Fn × Source.Function) (q : Fn × Body) : Prop :=
  q.1 = p.1 ∧ List.Forall₂ (BindsTo { c with function := some p.1 } false) p.2.body q.2

theorem functionBodies_areBodies (declared : List (Fn × Source.Function)) :
    Yields (functionBodies c scope declared) (List.Forall₂ (IsBodyOf c) declared) := by
  induction declared with
  | nil => exact .pure .nil
  | cons p declared ih =>
    have body : Yields (functionBody c scope p.1 p.2)
        (List.Forall₂ (BindsTo { c with function := some p.1 } false) p.2.body) :=
      (stmts_bindTo p.2.body).bind fun bound row => .pure row
    exact body.bind fun bound row => ih.bind fun rest rows => .pure (.cons ⟨rfl, row⟩ rows)

/-- Global statements without a mistake are run by a function that is made for them. -/
theorem entryFn?_made {given : Prop} {declared : List (Fn × Source.Function)}
    (among : given → ∀ f ∈ scope.fns, f ∈ declared.map Prod.fst) :
    Sound given (entryFn? c scope declared true) fun entry => ∃ e, entry = some e ∧ MadeForGlobals e := by
  have create (name : String) : Sound given (do
      return some (← Bind.fresh (Fn.create name [] .void none)))
      fun entry => ∃ e, entry = some e ∧ MadeForGlobals e := by
    refine Sound.bind (P := MadeForGlobals) (.fresh fun _ _ => ⟨rfl, rfl, rfl, rfl⟩) fun e => ?_
    exact .pure fun ⟨_, made⟩ => ⟨e, rfl, made⟩
  have wrong (entry : Option Fn) : Sound False (Pure.pure entry : Bind (Option Fn)) fun _ => True :=
    .pure fun _ => trivial
  unfold entryFn?
  split
  · exact create scriptName
  · cases found : (scope.lookupLocal? mainName).bind Symbol.fn? with
    | none => exact create mainName
    | some main =>
      dsimp only
      cases isDeclared : declared.find? (·.1.id = main.id) with
      | none =>
        refine .pure fun holds => ?_
        obtain ⟨p, within, same⟩ := List.mem_map.1 (among holds main (mem_fns_of_lookupLocal found))
        have other := List.find?_eq_none.1 isDeclared p within
        simp [same] at other
      | some p =>
        dsimp only
        split
        · exact Sound.reported rfl fun _ => Sound.reported rfl fun _ => wrong _
        · exact Sound.reported rfl fun _ => wrong _

end Binding

/-- There is one body under the number of the function, and it is this one. -/
def OnlyBody (bodies : Bodies) (fn : Fn) (body : Body) : Prop :=
  bodies.filter (·.1.id = fn.id) = [(fn, body)]

theorem OnlyBody.of_mem {bodies : Bodies} {fn : Fn} {body : Body}
    (nodup : (bodies.map (·.1.id)).Nodup) (member : (fn, body) ∈ bodies) :
    OnlyBody bodies fn body := by
  unfold OnlyBody
  induction bodies with
  | nil => contradiction
  | cons p bodies ih =>
    obtain ⟨new, rest⟩ := List.nodup_cons.1 nodup
    rcases List.mem_cons.1 member with rfl | later
    · have others : bodies.filter (·.1.id = fn.id) = [] := by
        refine List.filter_eq_nil_iff.2 fun q within same => new (List.mem_map.2 ⟨q, within, ?_⟩)
        exact of_decide_eq_true same
      rw [List.filter_cons_of_pos (by simp), others]
    · have other : p.1.id ≠ fn.id := fun same => new (List.mem_map.2 ⟨_, later, same.symm⟩)
      rw [List.filter_cons_of_neg (by simpa using other), ih rest later]

theorem OnlyBody.mem {bodies : Bodies} {fn : Fn} {body : Body} (only : OnlyBody bodies fn body) :
    (fn, body) ∈ bodies := by
  have first : (fn, body) ∈ bodies.filter (·.1.id = fn.id) := by
    rw [only]
    exact List.mem_singleton.2 rfl
  exact List.mem_of_mem_filter first

/-- Every function of the unit has one body if their numbers differ. -/
theorem exists_onlyBody {bodies : Bodies} {fn : Fn} (nodup : (bodies.map (·.1.id)).Nodup)
    (member : fn ∈ bodies.map Prod.fst) : ∃ body, OnlyBody bodies fn body := by
  obtain ⟨q, within, rfl⟩ := List.mem_map.1 member
  exact ⟨q.2, .of_mem nodup within⟩

namespace Binding

def HasOwnBody (c : BindContext) (bodies : Bodies) (f : Source.Function) (fn : Fn) : Prop :=
  MadeFrom f fn ∧ ∃ body, OnlyBody bodies fn body ∧
    List.Forall₂ (BindsTo { c with function := some fn } false) f.body body

section

variable {scriptMode : Bool} {history : List Declarations} {u : Source.Unit} {next : Nat}

/-- The functions that a unit declares, in order, have their own numbers. -/
theorem headsPass_makes :
    (headsPass file history u next).1.1.map Prod.snd = u.functions ∧
      (∀ p ∈ (headsPass file history u next).1.1, MadeFrom p.2 p.1) ∧
      ((headsPass file history u next).1.1.map (·.1.id)).Nodup :=
  have made := declareFns_make u.functions ⟨next + 5, .empty⟩
  have minted := declareFns_mintsFns u.functions ⟨next + 5, .empty⟩ _ (.nil (Nat.le_refl _))
  ⟨made.1, made.2, minted.nodup⟩

theorem bodiesPass_areBodies : List.Forall₂ (IsBodyOf (unitContext scriptMode file u))
    (headsPass file history u next).1.1 (bodiesPass scriptMode file history u next).1 :=
  functionBodies_areBodies _ _

theorem bodiesPass_keys : (bodiesPass scriptMode file history u next).1.map Prod.fst =
    (headsPass file history u next).1.1.map Prod.fst := by
  have same : List.Forall₂ (· = ·) ((bodiesPass scriptMode file history u next).1.map Prod.fst)
      ((headsPass file history u next).1.1.map Prod.fst) := by
    rw [List.forall₂_map_left_iff, List.forall₂_map_right_iff]
    exact (bodiesPass_areBodies.imp fun p q isBody => isBody.1).flip
  rwa [List.forall₂_eq_eq_eq] at same

theorem bindUnit_bodies : (bindUnit scriptMode file history u next).1.bodies =
    addEntry (bodiesPass scriptMode file history u next).1
      (entryPass scriptMode file history u next).1
      (globalsPass scriptMode file history u next).1.1 := rfl

/-- The bodies of a unit have their own numbers, the one of the entry included. -/
theorem bindUnit_nodup :
    ((bindUnit scriptMode file history u next).1.bodies.map (·.1.id)).Nodup := by
  have ids : (bodiesPass scriptMode file history u next).1.map (·.1.id) =
      (headsPass file history u next).1.1.map (·.1.id) := by
    have keys : (bodiesPass scriptMode file history u next).1.map Prod.fst = _ := bodiesPass_keys
    have numbers := congrArg (List.map Fn.id) keys
    rwa [List.map_map, List.map_map] at numbers
  have declared : ((bodiesPass scriptMode file history u next).1.map (·.1.id)).Nodup :=
    ids ▸ headsPass_makes.2.2
  rw [bindUnit_bodies]
  unfold addEntry
  split
  · exact declared
  · split
    · exact declared
    next e _ new =>
      rw [List.map_append, List.map_singleton, List.nodup_append]
      refine ⟨declared, by simp, fun id member _ isEntry same => new ?_⟩
      obtain ⟨q, within, rfl⟩ := List.mem_map.1 member
      refine List.any_eq_true.2 ⟨q, within, ?_⟩
      simpa [same] using isEntry

/-- Every declared function of a unit has its own body. -/
theorem bindUnit_ownBodies :
    List.Forall₂ (HasOwnBody (unitContext scriptMode file u)
        (bindUnit scriptMode file history u next).1.bodies)
      u.functions ((headsPass file history u next).1.1.map Prod.fst) := by
  obtain ⟨sources, made, _⟩ :
      (headsPass file history u next).1.1.map Prod.snd = u.functions ∧ _ ∧ _ := headsPass_makes
  rw [← sources, List.forall₂_map_left_iff, List.forall₂_map_right_iff, List.forall₂_same]
  intro p member
  refine ⟨made p member, ?_⟩
  have bound : List.Forall₂ (IsBodyOf (unitContext scriptMode file u))
      (headsPass file history u next).1.1 _ := bodiesPass_areBodies
  obtain ⟨q, within, same, row⟩ := exists_of_forall₂ bound.flip member
  refine ⟨q.2, .of_mem bindUnit_nodup ?_, row⟩
  rw [bindUnit_bodies, ← same]
  exact addEntry_keeps _ _ within

/-- The declared functions of a unit come from its declarations. -/
theorem headsPass_given {fn : Fn} (member : fn ∈ (headsPass file history u next).1.1.map Prod.fst) :
    fn.declaration.isSome = true := by
  obtain ⟨p, within, rfl⟩ := List.mem_map.1 member
  rw [(headsPass_makes.2.1 p within).declaration]
  rfl

/-- In a unit without errors, the global statements are the body of an entry function that is none
of the declared ones. -/
theorem bindUnit_entryBody
    (noErrors :
      (bindUnit scriptMode file history u next).1.declarations.diagnostics.hasErrors = false)
    (hasGlobals : u.statements ≠ []) :
    ∃ e, (bindUnit scriptMode file history u next).1.declarations.entry = some e ∧
      (∀ fn ∈ (headsPass file history u next).1.1.map Prod.fst, fn.id ≠ e.id) ∧
      ∃ body, OnlyBody (bindUnit scriptMode file history u next).1.bodies e body ∧
        List.Forall₂ (BindsTo (unitContext scriptMode file u) true) u.statements body := by
  have row : List.Forall₂ (BindsTo (unitContext scriptMode file u) true) u.statements
      (globalsPass scriptMode file history u next).1.1 := globals_bindTo u.statements _
  have someBound : (!(globalsPass scriptMode file history u next).1.1.isEmpty) = true := by
    have length := row.length_eq
    simp only [Bool.not_eq_true', List.isEmpty_eq_false_iff]
    rintro none
    rw [none] at length
    exact hasGlobals (List.eq_nil_of_length_eq_zero length)
  obtain ⟨_, statements, entry⟩ := silent_passes noErrors
  obtain ⟨e, isEntry, made⟩ : ∃ e, (entryPass scriptMode file history u next).1 = some e ∧
      MadeForGlobals e := by
    unfold entryPass at entry ⊢
    dsimp only at entry ⊢
    rw [someBound] at entry ⊢
    exact (entryFn?_made (fun _ => globalsPass_among) _ entry).2 trivial
  have keys : (bodiesPass scriptMode file history u next).1.map Prod.fst =
      (headsPass file history u next).1.1.map Prod.fst := bodiesPass_keys
  have apart : ∀ fn ∈ (headsPass file history u next).1.1.map Prod.fst, fn.id ≠ e.id := by
    intro fn member same
    have isBody : fn ∈ (bindUnit scriptMode file history u next).1.bodies.map Prod.fst := by
      rw [← keys] at member
      obtain ⟨q, within, rfl⟩ := List.mem_map.1 member
      exact List.mem_map_of_mem (addEntry_keeps _ _ within)
    obtain rfl := bindUnit_entry_unique scriptMode file u isEntry fn isBody same
    have given := headsPass_given member
    rw [made.declaration] at given
    contradiction
  refine ⟨e, isEntry, apart, _, .of_mem bindUnit_nodup ?_, row⟩
  have new : ¬(bodiesPass scriptMode file history u next).1.any (·.1.id = e.id) = true := by
    intro isOld
    obtain ⟨q, within, same⟩ := List.any_eq_true.1 isOld
    exact apart q.1 (keys ▸ List.mem_map_of_mem within) (of_decide_eq_true same)
  rw [bindUnit_bodies, isEntry, addEntry, if_neg new]
  exact List.mem_append_right _ (List.mem_singleton.2 rfl)

end

end Binding

/-- A call of the function finds a body in the program, unless the function is a builtin. -/
def Program.Resolves (p : Program) (f : Fn) : Prop :=
  f.builtin.isSome = true ∨ ∃ body, p.body? f = some body

theorem Program.resolves_of_callable {p : Program} {f : Fn} (callable : Callable p.units f) :
    p.Resolves f := callable.imp_right fun has => body?_of_hasBody has rfl

namespace Generation

def context (g : Generation) : BindContext :=
  Binding.unitContext g.compiled.options.scriptMode g.compiled.options.file g.unit

/-- Nothing of the unit is lost: what it calls is found, and all its functions and its global
statements have become bodies. -/
structure Assembled (g : Generation) : Prop where
  boundCalls : ∀ p ∈ g.bound.bodies, ∀ f ∈ Stmt.callsOf p.2, g.compiled.program.Resolves f
  calls : ∀ p ∈ g.compiled.program.bodies, ∀ f ∈ Stmt.callsOf p.2, g.compiled.program.Resolves f
  entry : ∀ e, g.compiled.program.entry = some e → ∃ body, g.compiled.program.body? e = some body
  /-- These are the declared functions, in order. With global statements and no errors, the entry is
  none of them, and it has the global statements. -/
  bodies : ∃ fns, List.Forall₂ (Binding.HasOwnBody g.context g.bound.bodies) g.unit.functions fns ∧
    (∀ fn ∈ fns, ∃ flat, OnlyBody g.compiled.program.bodies fn flat) ∧
    (g.compiled.diagnostics.hasErrors = false → g.unit.statements ≠ [] →
      ∃ e, g.compiled.program.entry = some e ∧ (∀ fn ∈ fns, fn.id ≠ e.id) ∧
        ∃ body, OnlyBody g.bound.bodies e body ∧
          List.Forall₂ (Binding.BindsTo g.context true) g.unit.statements body)

end Generation

namespace Compilation

theorem lowerBodies_callsOnly {P : Fn → Prop} {options : Options} {file : Option String}
    {u : Source.Unit} {bound : Bodies} {n : Nat}
    (calls : ∀ p ∈ bound, ∀ f ∈ Stmt.callsOf p.2, P f) :
    ∀ q ∈ (lowerBodies options file u bound n).1.1, CallsOnly P q.2 := by
  intro q member
  obtain ⟨p, isBound, lowers⟩ := exists_lowersTo member
  exact lowers.forall_mem fun n => Body.lower_callsOnly (calls p isBound) p.1.returns n

variable {options : Options} {history : List Declarations} {earlier : List Bodies}
  {u : Source.Unit} {next : Nat}

/-- The symbols that a bound unit mentions are found where it is compiled. -/
theorem compileAfter_finds (known : ∀ d ∈ history, ∀ f ∈ d.fns, Callable earlier f) :
    let bound := (bindUnit options.scriptMode options.file history u next).1
    let p := (compileAfter options history earlier u next).1.program
    (∀ q ∈ bound.bodies, ∀ f ∈ Stmt.callsOf q.2, Callable p.units f) ∧
      (∀ f ∈ bound.declarations.fns, Callable p.units f) ∧
      ∀ e, bound.declarations.entry = some e → ∃ f, HasBody p.units f ∧ f.id = e.id := by
  intro bound p
  have tracked : Binding.UnitTracked (Callable earlier) bound :=
    (Binding.unit_tracks (S := fun _ => True) (fun _ _ _ _ => trivial) known
      fun _ isBuiltin => .inl isBuiltin).holds ⟨next, .empty⟩
  have own {f : Fn} (member : f ∈ bound.bodies.map Prod.fst) : HasBody p.units f := by
    have keys : p.bodies.map Prod.fst = bound.bodies.map Prod.fst := compileAfter_keys
    exact .head (keys ▸ member)
  refine ⟨fun q member f called => ?_, fun f member => .inr (own (tracked.fns f member)),
    fun e isEntry => ?_⟩
  · exact (tracked.calls q member f called).elim (Callable.cons p.bodies) fun isOwn => .inr (own isOwn)
  · obtain ⟨f, member, same⟩ := tracked.entry e isEntry
    exact ⟨f, own member, same⟩

/-- The compiled bodies of a unit have their own numbers. -/
theorem compileAfter_nodup :
    ((compileAfter options history earlier u next).1.program.bodies.map (·.1.id)).Nodup := by
  have keys : (compileAfter options history earlier u next).1.program.bodies.map Prod.fst =
      (bindUnit options.scriptMode options.file history u next).1.bodies.map Prod.fst :=
    compileAfter_keys
  have numbers := congrArg (List.map Fn.id) keys
  rw [List.map_map, List.map_map] at numbers
  exact numbers ▸ Binding.bindUnit_nodup

/-- Behind units whose functions have bodies, a unit is assembled whole. -/
theorem compileAfter_assembled (known : ∀ d ∈ history, ∀ f ∈ d.fns, Callable earlier f) :
    Generation.Assembled ⟨u, next, (compileAfter options history earlier u next).1⟩ := by
  have keys : (compileAfter options history earlier u next).1.program.bodies.map Prod.fst =
      (bindUnit options.scriptMode options.file history u next).1.bodies.map Prod.fst :=
    compileAfter_keys
  obtain ⟨calls, _, entry⟩ := compileAfter_finds known
  refine ⟨fun p member f called => ?_, fun p member f called => ?_, fun e isEntry => ?_, ?_⟩
  · exact Program.resolves_of_callable (calls p member f called)
  · have among : ∀ s ∈ p.2, ∀ f ∈ s.calls, Callable _ f := lowerBodies_callsOnly calls p member
    obtain ⟨s, within, isCalled⟩ := Stmt.exists_of_mem_callsOf called
    exact Program.resolves_of_callable (among s within f isCalled)
  · obtain ⟨f, has, same⟩ := entry e isEntry
    exact Program.body?_of_hasBody has same
  · refine ⟨_, Binding.bindUnit_ownBodies, fun fn member => exists_onlyBody compileAfter_nodup ?_,
      fun noErrors => Binding.bindUnit_entryBody (compileAfter_noErrors noErrors).1⟩
    rw [keys]
    obtain ⟨_, _, _, body, only, _⟩ := exists_of_forall₂ Binding.bindUnit_ownBodies member
    exact List.mem_map.2 ⟨(fn, body), only.mem, rfl⟩

/-- Behind other units all units of a chain are assembled whole. -/
theorem generationsAfter_assembled (us : List Source.Unit) {history : List Declarations}
    {earlier : List Bodies} {next : Nat}
    (known : ∀ d ∈ history, ∀ f ∈ d.fns, Callable earlier f) :
    ∀ g ∈ generationsAfter options history earlier us next, g.Assembled := by
  refine forall_mem_generationsAfter us (E := fun _ => True)
    (I := fun history earlier _ => ∀ d ∈ history, ∀ f ∈ d.fns, Callable earlier f)
    (fun u known _ => ⟨compileAfter_assembled known, ?_⟩) known fun _ _ => trivial
  refine List.forall_mem_cons.2 ⟨(compileAfter_finds known).2.1, fun d member f declares => ?_⟩
  exact (known d member f declares).cons _

/-- Nothing of the units of a chain is lost, with or without errors. -/
theorem chain_assembles (options : Options) (us : List Source.Unit) (next : Nat) :
    ∀ g ∈ generations options us next, g.Assembled :=
  generationsAfter_assembled us (List.forall_mem_nil _)

end Compilation

namespace RepeatedName

open Source

def first : Source.Unit := (Sketch.Unit.place ⟨none, [
  .function ⟨"f", [], none, [.expr (.call "print" [.literal (.int 1)])]⟩,
  .function ⟨"f", [], none, [.expr (.call "print" [.literal (.int 2)])]⟩,
  .statement (.expr (.call "f" []))]⟩ .start).1

def second : Source.Unit := (Sketch.Unit.place ⟨none, [
  .statement (.expr (.call "f" [])),
  .statement (.expr (.call "f" []))]⟩ .start).1

end RepeatedName

/-- Behind a unit that declares a name twice, both statements of a unit that calls it are in the
body of its entry. -/
theorem repeatedName_assembled :
    ∃ g ∈ Compilation.generations .standard [RepeatedName.first, RepeatedName.second] 0,
      g.number = 1 ∧ (g.compiled.history.any fun d => d.diagnostics.hasErrors) = true ∧
        ∃ e body, g.compiled.program.entry = some e ∧ OnlyBody g.bound.bodies e body ∧
          body.length = 2 := by
  have last : ∃ g ∈ Compilation.generations .standard [RepeatedName.first, RepeatedName.second] 0,
      g.number = 1 ∧ (g.compiled.history.any fun d => d.diagnostics.hasErrors) = true ∧
        g.compiled.diagnostics.hasErrors = false ∧ g.unit.statements.length = 2 := by
    decide +kernel
  obtain ⟨g, member, isLast, mistake, noErrors, two⟩ := last
  have assembled := Compilation.chain_assembles .standard
    [RepeatedName.first, RepeatedName.second] 0 g member
  obtain ⟨_, _, _, fromGlobals⟩ := assembled.bodies
  obtain ⟨e, isEntry, _, body, only, row⟩ := fromGlobals noErrors fun none => by simp [none] at two
  exact ⟨g, member, isLast, mistake, e, body, isEntry, only, row.length_eq ▸ two⟩

end ScriptLang
