import ScriptLang.Proofs.BindingSymbols

/-! The functions that a unit declares and the one it makes for its global statements are new,
and the bodies of a unit call builtins, functions of earlier units, and functions of the
unit, all of which have bodies. -/

namespace ScriptLang

theorem Scope.among_fns_declare {scope scope' : Scope} {name : String} {f : Fn}
    (declared : scope.declare? name (.fn f) = some scope') :
    ∀ g ∈ scope'.fns, g ∈ scope.fns ∨ g = f := by
  unfold declare? at declared
  split at declared
  next => contradiction
  next new =>
    obtain rfl := Option.some.inj declared
    simp [fns, symbols, replace, OrderedMap.values_insert_of_new (Bool.eq_false_iff.2 new),
      Symbol.fn?]

namespace Binding

open Source (Token Name TypeClause)

/-- A parameter lives in the frame of a call, and its value is not known ahead of time. -/
structure IsParameter (v : Var) : Prop where
  isLocal : v.isGlobal = false
  unknown : v.constant = none

def DeclaredAs (f : Fn) : Prop :=
  f.builtin = none ∧ f.declaration.isSome = true ∧ ∀ p ∈ f.parameters, IsParameter p

structure FnsDeclared (scope : Scope) (fns : List Fn) (scope' : Scope) : Prop where
  holds : ∀ P, scope.Holds P → (∀ f ∈ fns, P (.fn f)) → scope'.Holds P
  among : ∀ f ∈ scope'.fns, f ∈ scope.fns ∨ f ∈ fns
  shape : ∀ f ∈ fns, DeclaredAs f

variable {S : Var → Prop} {file : Option String} {scope : Scope}

theorem type?_gives (clause : TypeClause) : Gives (type? file clause) fun _ => True := by
  unfold type?
  cases Ty.ofName? clause.name.text with
  | none => exact .reported fun _ => .pure trivial
  | some t => exact .pure trivial

theorem parameters_tracks {S : Var → Prop} {done : List Var} (known : ∀ v ∈ done, S v)
    (areParameters : ∀ v ∈ done, IsParameter v) (ps : List Source.Parameter) :
    Tracks Var.id S (parameters file done ps) (fun vs => ∀ v ∈ vs, IsParameter v)
      fun vs v => v ∈ vs := by
  induction ps generalizing done S with
  | nil => exact .pure areParameters known
  | cons p ps ih =>
    unfold parameters
    refine (type?_gives p.type).before fun t? _ => ?_
    dsimp only
    split
    · exact .reported (.report _ _ _ _) fun _ => ih known areParameters
    · refine (Tracks.freshOne (P := IsParameter) (fun _ => ⟨rfl, rfl⟩)
        fun _ => ⟨rfl, rfl⟩).bind fun v isParameter => ?_
      refine ih (fun w member => ?_) fun w member => ?_
      · exact (List.mem_append.1 member).imp (known w) List.mem_singleton.1
      · rcases List.mem_append.1 member with old | new
        · exact areParameters w old
        · exact List.mem_singleton.1 new ▸ isParameter

/-- The last steps of declaring a function: it is made, and declared if its name is free. -/
theorem makeFn_tracks {ι : Type} {id : ι → Nat} {S : ι → Prop} {f : Source.Function}
    {ps : List Var} {returns : Ty} {T : Fn → ι → Prop}
    (made : Tracks id S (Bind.fresh (Fn.create f.name.text ps returns (some f.mark.id)))
      (fun fn => DeclaredAs fn) T) :
    Tracks id S (do
        let fn ← Bind.fresh (Fn.create f.name.text ps returns (some f.mark.id))
        match scope.declare? f.name.text (.fn fn) with
        | some scope => return (fn, scope)
        | none =>
          Bind.report file f.name.mark.range .symbolAlreadyDeclared [f.name.text]
          return (fn, scope))
      (fun r => FnsDeclared scope [r.1] r.2) fun r v => T r.1 v := by
  refine made.bind fun fn shape => ?_
  cases declared : scope.declare? f.name.text (.fn fn) with
  | none =>
    exact .reported (.report _ _ _ _) fun _ => .pure
      ⟨fun _ holds _ => holds, fun _ => .inl, by simpa using shape⟩ fun _ => .inr
  | some scope' =>
    refine .pure ⟨fun P holds new => ?_, fun g member => ?_, by simpa using shape⟩ fun _ => .inr
    · exact holds.declare (new fn List.mem_cons_self) declared
    · exact (Scope.among_fns_declare declared g member).imp_right List.mem_singleton.2

theorem declareFn_tracks (f : Source.Function) :
    Tracks Var.id S (declareFn file scope f) (fun r => FnsDeclared scope [r.1] r.2)
      fun r v => v ∈ r.1.parameters := by
  unfold declareFn
  refine (parameters_tracks (fun _ member => absurd member List.not_mem_nil)
    (fun _ member => absurd member List.not_mem_nil) f.parameters).bind fun ps areParameters => ?_
  have made (returns : Ty) : Tracks Var.id (fun v => S v ∨ v ∈ ps)
      (Bind.fresh (Fn.create f.name.text ps returns (some f.mark.id))) DeclaredAs
      fun fn v => v ∈ fn.parameters :=
    .fresh (fun n => ⟨Nat.le_succ n, rfl, rfl, areParameters⟩) fun n v => .inr
  cases f.returns with
  | none =>
    exact Gives.before (P := fun _ => True) (.pure trivial) fun _ _ =>
      makeFn_tracks (made _)
  | some clause =>
    refine (type?_gives clause).before fun t? _ => ?_
    exact Gives.before (P := fun _ => True) (.pure trivial) fun _ _ =>
      makeFn_tracks (made _)

theorem declareFn_tracksFn {S : Fn → Prop} (f : Source.Function) :
    Tracks Fn.id S (declareFn file scope f) (fun r => FnsDeclared scope [r.1] r.2)
      fun r g => g = r.1 := by
  unfold declareFn
  have ps : Tracks Var.id (fun _ => False) (parameters file [] f.parameters)
      (fun vs => ∀ v ∈ vs, IsParameter v) fun vs v => v ∈ vs :=
    parameters_tracks (fun _ member => absurd member List.not_mem_nil)
      (fun _ member => absurd member List.not_mem_nil) f.parameters
  refine ps.other.before fun ps areParameters => ?_
  have made (returns : Ty) : Tracks Fn.id S
      (Bind.fresh (Fn.create f.name.text ps returns (some f.mark.id))) DeclaredAs
      fun fn g => g = fn := .freshOne (fun n => ⟨rfl, rfl, areParameters⟩) fun n => ⟨rfl, rfl⟩
  cases f.returns with
  | none => exact makeFn_tracks (made _)
  | some clause =>
    exact (type?_gives clause fun _ => False).other.before fun t? _ => makeFn_tracks (made _)

theorem FnsDeclared.cons {scope scope' scope'' : Scope} {f : Fn} {fs : List Fn}
    (first : FnsDeclared scope [f] scope') (rest : FnsDeclared scope' fs scope'') :
    FnsDeclared scope (f :: fs) scope'' where
  holds P holds new :=
    rest.holds P (first.holds P holds fun g member => new g (List.mem_cons.2 (.inl
      (List.mem_singleton.1 member)))) fun g member => new g (List.mem_cons_of_mem f member)
  among g member := by
    rcases rest.among g member with inner | member
    · exact (first.among g inner).imp_right fun member =>
        List.mem_cons.2 (.inl (List.mem_singleton.1 member))
    · exact .inr (List.mem_cons_of_mem f member)
  shape := List.forall_mem_cons.2 ⟨first.shape f List.mem_cons_self, rest.shape⟩

theorem declareFns_tracks {S : Var → Prop} {scope : Scope} (fs : List Source.Function) :
    Tracks Var.id S (declareFns file scope fs)
      (fun r => FnsDeclared scope (r.1.map Prod.fst) r.2)
      fun r v => ∃ f ∈ r.1.map Prod.fst, v ∈ f.parameters := by
  induction fs generalizing S scope with
  | nil =>
    refine .pure ⟨fun _ holds _ => holds, fun _ => .inl, ?_⟩ ?_
    · exact fun _ member => absurd member List.not_mem_nil
    · rintro v ⟨f, member, _⟩
      contradiction
  | cons f fs ih =>
    refine (declareFn_tracks f).bind fun r declared => ?_
    refine ih.bind fun rest declaredRest => ?_
    refine .pure (declared.cons declaredRest) ?_
    rintro v ⟨g, member, isParameter⟩
    rcases List.mem_cons.1 member with rfl | member
    · exact .inl (.inr isParameter)
    · exact .inr ⟨g, member, isParameter⟩

theorem declareFns_tracksFn {S : Fn → Prop} {scope : Scope} (fs : List Source.Function) :
    Tracks Fn.id S (declareFns file scope fs)
      (fun r => FnsDeclared scope (r.1.map Prod.fst) r.2)
      fun r f => f ∈ r.1.map Prod.fst := by
  have declares : Tracks Var.id (fun _ => False) (declareFns file scope fs) _ _ :=
    declareFns_tracks fs
  induction fs generalizing S scope with
  | nil =>
    exact .pure (declares.holds ⟨0, .empty⟩) fun _ member => absurd member List.not_mem_nil
  | cons f fs ih =>
    refine (declareFn_tracksFn f).bind fun r declared => ?_
    refine (ih (declareFns_tracks fs)).bind fun rest declaredRest => ?_
    refine .pure (declared.cons declaredRest) fun g member => ?_
    rcases List.mem_cons.1 member with rfl | member
    · exact .inl (.inr rfl)
    · exact .inr member

theorem globals_tracks {F : Fn → Prop} {S : Var → Prop} {c : BindContext} {scope : Scope}
    (starts : scope.Holds (Symbol.In S F)) (ss : List Source.Stmt) :
    Tracks Var.id S (globals c scope ss) (BodyTracked F c.loops scope)
      fun bound v => v ∈ Stmt.varsOf bound.1 ∨ bound.2.HasVar v := by
  induction ss generalizing S scope with
  | nil =>
    refine .pure (.nil starts) fun v isKnown => ?_
    exact isKnown.elim (fun member => absurd member List.not_mem_nil)
      ((Scope.holds_in_iff.1 starts).1 v)
  | cons s ss ih =>
    refine (stmt_tracks true starts s).bind fun bound tracked => ?_
    refine (ih (tracked.behind _)).bind fun rest trackedRest => ?_
    refine .pure (tracked.cons trackedRest) fun v isKnown => ?_
    rcases isKnown with member | isKnown
    · exact (List.mem_append.1 member).imp (fun member => .inr (.inl member)) .inl
    · exact .inr (.inr isKnown)

/-- The scope in which the body of a function is bound. -/
theorem holds_parameters {P : Symbol → Prop} {scope : Scope} (holds : scope.Holds P)
    {ps : List Var} (new : ∀ p ∈ ps, P (.var p)) :
    (ps.foldl (fun s p => (s.declare? p.name (.var p)).getD s) scope).Holds P := by
  induction ps generalizing scope with
  | nil => exact holds
  | cons p ps ih =>
    obtain ⟨first, rest⟩ := List.forall_mem_cons.1 new
    have next : ((scope.declare? p.name (.var p)).getD scope).Holds P := by
      cases declared : scope.declare? p.name (.var p) with
      | none => exact holds
      | some scope' => exact holds.declare first declared
    exact ih next rest

theorem functionBody_tracks {F : Fn → Prop} {S : Var → Prop} {c : BindContext} {fn : Fn}
    {f : Source.Function} (starts : scope.Holds (Symbol.In S F))
    (parameters : ∀ p ∈ fn.parameters, S p) :
    Tracks Var.id S (functionBody c scope fn f)
      (fun body => Stmt.AllJumpWithin c.loops body ∧ ∀ g ∈ Stmt.callsOf body, F g)
      fun body v => v ∈ Stmt.varsOf body := by
  have inner := holds_parameters starts.push parameters
  refine (stmts_tracks inner.push f.body).bind fun bound tracked => ?_
  exact .pure ⟨tracked.jumps, tracked.calls⟩ fun v member => .inr (.inl member)

theorem functionBodies_tracks {F : Fn → Prop} {S : Var → Prop} {c : BindContext}
    (starts : scope.Holds (Symbol.In S F)) (declared : List (Fn × Source.Function))
    (parameters : ∀ p ∈ declared, ∀ v ∈ p.1.parameters, S v) :
    Tracks Var.id S (functionBodies c scope declared)
      (fun bodies => bodies.map Prod.fst = declared.map Prod.fst ∧ ∀ p ∈ bodies,
        Stmt.AllJumpWithin c.loops p.2 ∧ ∀ g ∈ Stmt.callsOf p.2, F g)
      fun bodies v => ∃ p ∈ bodies, v ∈ Stmt.varsOf p.2 := by
  induction declared generalizing S with
  | nil =>
    refine .pure ⟨rfl, fun _ member => absurd member List.not_mem_nil⟩ ?_
    rintro v ⟨p, member, _⟩
    contradiction
  | cons p declared ih =>
    obtain ⟨first, rest⟩ := List.forall_mem_cons.1 parameters
    refine (functionBody_tracks starts first).bind fun body tracked => ?_
    refine (ih (holds_more starts) fun q member v isParameter =>
      .inl (rest q member v isParameter)).bind fun bodies trackedRest => ?_
    refine .pure ⟨congrArg (List.cons p.1) trackedRest.1,
      List.forall_mem_cons.2 ⟨tracked, trackedRest.2⟩⟩ ?_
    rintro v ⟨q, member, within⟩
    rcases List.mem_cons.1 member with rfl | member
    · exact .inl (.inr within)
    · exact .inr ⟨q, member, within⟩

/-- A function that is made for global statements. -/
structure MadeForGlobals (e : Fn) : Prop where
  declaration : e.declaration = none
  builtin : e.builtin = none
  parameters : e.parameters = []
  returns : e.returns = .void

def EntryOf (scope : Scope) (entry : Option Fn) : Prop :=
  ∀ e, entry = some e → MadeForGlobals e ∨ e ∈ scope.fns

theorem mem_fns_of_lookupLocal {name : String} {f : Fn}
    (found : (scope.lookupLocal? name).bind Symbol.fn? = some f) : f ∈ scope.fns := by
  obtain ⟨symbol, given, isFn⟩ := Option.bind_eq_some_iff.1 found
  exact List.mem_filterMap.2 ⟨symbol, OrderedMap.mem_values_of_get? given, isFn⟩

theorem entryFn?_tracks {ι : Type} {id : ι → Nat} {S : ι → Prop} {T : Fn → ι → Prop}
    {c : BindContext} {declared : List (Fn × Source.Function)} {hasGlobals : Bool}
    (made : ∀ name, Tracks id S (Bind.fresh (Fn.create name [] .void none))
      MadeForGlobals T)
    (known : ∀ f ∈ scope.fns, ∀ v, T f v → S v) :
    Tracks id S (entryFn? c scope declared hasGlobals) (EntryOf scope)
      fun entry v => ∃ e, entry = some e ∧ T e v := by
  have create (name : String) : Tracks id S (do
      return some (← Bind.fresh (Fn.create name [] .void none))) (EntryOf scope)
      fun entry v => ∃ e, entry = some e ∧ T e v := by
    refine (made name).bind fun e shape => .pure ?_ ?_
    · rintro _ equal
      exact .inl (Option.some.inj equal ▸ shape)
    · rintro v ⟨_, equal, isKnown⟩
      exact .inr (Option.some.inj equal ▸ isKnown)
  have declaredMain {main : Fn} (member : main ∈ scope.fns) :
      Tracks id S (Pure.pure (some main)) (EntryOf scope)
        fun entry v => ∃ e, entry = some e ∧ T e v := by
    refine .pure ?_ ?_
    · rintro _ equal
      exact .inr (Option.some.inj equal ▸ member)
    · rintro v ⟨_, equal, isKnown⟩
      obtain rfl := Option.some.inj equal
      exact known _ member v isKnown
  unfold entryFn?
  split
  · exact create scriptName
  · cases found : (scope.lookupLocal? mainName).bind Symbol.fn? with
    | none =>
      dsimp only
      split
      · exact create mainName
      · exact .pure nofun fun v => nofun
    | some main =>
      have member := mem_fns_of_lookupLocal found
      dsimp only
      cases declared.find? (·.1.id = main.id) with
      | none => exact declaredMain member
      | some p =>
        dsimp only
        split
        · refine .reported (.report _ _ _ _) fun _ => ?_
          split
          · exact .reported (.report _ _ _ _) fun _ => declaredMain member
          · exact declaredMain member
        · split
          · exact .reported (.report _ _ _ _) fun _ => declaredMain member
          · exact declaredMain member

theorem entryFn?_gives {c : BindContext} {declared : List (Fn × Source.Function)}
    {hasGlobals : Bool} : Gives (entryFn? c scope declared hasGlobals) (EntryOf scope) := by
  intro S
  have made (name : String) : Tracks Var.id S (Bind.fresh (Fn.create name [] .void none))
      MadeForGlobals fun _ _ => False :=
    .fresh (fun n => ⟨Nat.le_succ n, rfl, rfl, rfl, rfl⟩) fun _ _ impossible => impossible.elim
  refine (entryFn?_tracks made fun _ _ _ impossible => impossible.elim).mono (fun _ => id)
    (fun _ holds => holds) fun _ _ impossible => impossible.elim

theorem builtins_eq (n : Nat) :
    Builtin.all.mapM Builtin.createFn n =
      ([⟨n + 1, "print", [⟨n, "text", .any, .parameter 0, .readOnly none⟩], .void, none, some .print⟩,
        ⟨n + 2, "input", [], .string, none, some .input⟩,
        ⟨n + 4, "rnd", [⟨n + 3, "max", .int, .parameter 0, .readOnly none⟩], .int, none, some .rnd⟩],
        n + 5) := rfl

/-- The scope of the builtins knows nothing else. -/
theorem rootScope_holds {P : Symbol → Prop} (n : Nat)
    (new : ∀ f ∈ (Builtin.all.mapM Builtin.createFn n).1, P (.fn f)) :
    (rootScope n).1.Holds P := Scope.Holds.root.foldl_replace new

/-- What a unit is bound to, where `F` are the functions in scope before it. -/
structure UnitTracked (F : Fn → Prop) (bound : BoundUnit) : Prop where
  jumps : ∀ p ∈ bound.bodies, Stmt.AllJumpWithin [] p.2
  calls : ∀ p ∈ bound.bodies, ∀ f ∈ Stmt.callsOf p.2, F f ∨ f ∈ bound.bodies.map Prod.fst
  fns : ∀ f ∈ bound.declarations.fns, f ∈ bound.bodies.map Prod.fst
  shape : ∀ f ∈ bound.bodies.map Prod.fst,
    f.builtin = none ∧ ∀ p ∈ f.parameters, IsParameter p
  entry : ∀ e, bound.declarations.entry = some e → ∃ f ∈ bound.bodies.map Prod.fst, f.id = e.id

def unitVars (bound : BoundUnit) (v : Var) : Prop :=
  (∃ p ∈ bound.bodies, v ∈ Stmt.varsOf p.2 ∨ v ∈ p.1.parameters) ∨ v ∈ bound.declarations.vars

theorem mem_addEntry {bodies : List (Fn × Body)} {entry : Option Fn} {statements : Body}
    {p : Fn × Body} (member : p ∈ addEntry bodies entry statements) :
    p ∈ bodies ∨ (∃ e, entry = some e ∧ p = (e, statements) ∧
      bodies.any (·.1.id = e.id) = false) := by
  unfold addEntry at member
  cases entry with
  | none => exact .inl member
  | some e =>
    dsimp only at member
    split at member
    next => exact .inl member
    next new =>
      rcases List.mem_append.1 member with old | last
      · exact .inl old
      · exact .inr ⟨e, rfl, List.mem_singleton.1 last, Bool.eq_false_iff.2 new⟩

theorem addEntry_keeps {bodies : List (Fn × Body)} (entry : Option Fn) (statements : Body)
    {p : Fn × Body} (member : p ∈ bodies) : p ∈ addEntry bodies entry statements := by
  unfold addEntry
  cases entry with
  | none => exact member
  | some e =>
    dsimp only
    split
    · exact member
    · exact List.mem_append_left _ member

theorem addEntry_has {bodies : List (Fn × Body)} {e : Fn} {statements : Body} :
    ∃ f ∈ (addEntry bodies (some e) statements).map Prod.fst, f.id = e.id := by
  unfold addEntry
  dsimp only
  split
  next isOld =>
    obtain ⟨p, member, same⟩ := List.any_eq_true.1 isOld
    exact ⟨p.1, List.mem_map_of_mem member, by simpa using same⟩
  next => exact ⟨e, by simp, rfl⟩

variable {F : Fn → Prop} {scriptMode : Bool} {history : List Declarations} {u : Source.Unit}

/-- The scope that is there before any unit holds nothing but the builtin functions. -/
theorem rootScope_tracks {S : Var → Prop} (builtins : ∀ f, f.builtin.isSome = true → F f) :
    Tracks Var.id S (Bind.fresh rootScope)
      (fun root => root.Holds (Symbol.In (fun _ => False) F)) fun _ _ => False := by
  refine .fresh (fun n => ⟨Nat.le_add_right n 5, rootScope_holds n ?_⟩)
    fun _ _ impossible => impossible.elim
  rw [builtins_eq]
  intro f member
  refine builtins f ?_
  simp only [List.mem_cons, List.not_mem_nil, or_false] at member
  rcases member with rfl | rfl | rfl <;> rfl

/-- The scope in which a unit is bound holds what the units before it declare. -/
theorem historyScope_holds {S : Var → Prop} {root : Scope}
    (holds : root.Holds (Symbol.In (fun _ => False) F)) (vars : ∀ d ∈ history, ∀ v ∈ d.vars, S v)
    (fns : ∀ d ∈ history, ∀ f ∈ d.fns, F f) :
    ((historyScope root history).push).Holds (Symbol.In S F) := by
  refine Scope.Holds.push (Scope.Holds.history (holds.mono fun symbol isIn => ?_)
    fun d member => ⟨vars d member, fns d member⟩)
  cases symbol with
  | var v => exact isIn.elim
  | fn f => exact isIn

theorem unit_tracks {S : Var → Prop} (vars : ∀ d ∈ history, ∀ v ∈ d.vars, S v)
    (fns : ∀ d ∈ history, ∀ f ∈ d.fns, F f) (builtins : ∀ f, f.builtin.isSome = true → F f) :
    Tracks Var.id S (unit scriptMode file history u) (UnitTracked F) unitVars := by
  unfold unit
  refine (rootScope_tracks builtins).before fun root rootHolds => ?_
  have starts := historyScope_holds rootHolds vars fns
  dsimp only
  refine (declareFns_tracks u.functions).bind fun r declared => ?_
  obtain ⟨declaredFns, scope⟩ := r
  have starts' : scope.Holds (Symbol.In
      (fun v => S v ∨ ∃ f ∈ declaredFns.map Prod.fst, v ∈ f.parameters)
      fun f => F f ∨ f ∈ declaredFns.map Prod.fst) := by
    refine declared.holds _ (starts.mono fun symbol isIn => ?_) fun f member => Or.inr member
    cases symbol with
    | var v => exact Or.inl isIn
    | fn f => exact Or.inl isIn
  have noFns : ∀ f ∈ scope.fns, f ∈ declaredFns.map Prod.fst := fun f member =>
    (declared.among f member).resolve_left List.not_mem_nil
  dsimp only
  refine (globals_tracks starts' u.statements).bind fun bound tracked => ?_
  obtain ⟨statements, scope'⟩ := bound
  have sameFns : scope'.fns = scope.fns := tracked.scope.same
  dsimp only
  refine (entryFn?_gives _).before fun entry isEntry => ?_
  have behind := holds_behind (S := fun v => S v ∨ ∃ f ∈ declaredFns.map Prod.fst, v ∈ f.parameters)
    (T := fun v => v ∈ Stmt.varsOf statements ∨ scope'.HasVar v) tracked.scope fun v isKnown =>
      .inr (.inr isKnown)
  refine (functionBodies_tracks behind declaredFns fun p member v isParameter =>
    .inl (.inr ⟨p.1, List.mem_map_of_mem member, isParameter⟩)).bind fun bodies trackedBodies => ?_
  obtain ⟨sameKeys, trackedBodies⟩ := trackedBodies
  refine Tracks.get.before fun state _ => ?_
  have isBody {f : Fn} (member : f ∈ declaredFns.map Prod.fst) :
      f ∈ (addEntry bodies entry statements).map Prod.fst := by
    rw [← sameKeys] at member
    obtain ⟨p, within, rfl⟩ := List.mem_map.1 member
    exact List.mem_map_of_mem (addEntry_keeps entry statements within)
  have isDeclared {e : Fn} (member : e ∈ scope'.fns) : e ∈ declaredFns.map Prod.fst :=
    noFns e (sameFns ▸ member)
  have keyDeclared {p : Fn × Body} (member : p ∈ bodies) : p.1 ∈ declaredFns.map Prod.fst :=
    sameKeys ▸ List.mem_map_of_mem member
  refine .pure ⟨?_, ?_, fun f member => isBody (isDeclared member), ?_, ?_⟩ ?_
  · intro p member
    rcases mem_addEntry member with member | ⟨e, _, rfl, _⟩
    · exact (trackedBodies p member).1
    · exact tracked.jumps
  · intro p member f called
    rcases mem_addEntry member with member | ⟨e, _, rfl, _⟩
    · exact ((trackedBodies p member).2 f called).imp_right isBody
    · exact (tracked.calls f called).imp_right isBody
  · intro f member
    obtain ⟨p, within, rfl⟩ := List.mem_map.1 member
    rcases mem_addEntry within with within | ⟨e, given, rfl, _⟩
    · have shape := declared.shape p.1 (keyDeclared within)
      exact ⟨shape.1, shape.2.2⟩
    · rcases isEntry e given with made | member
      · exact ⟨made.builtin, by simp [made.parameters]⟩
      · have shape := declared.shape e (isDeclared member)
        exact ⟨shape.1, shape.2.2⟩
  · intro e given
    obtain rfl : entry = some e := given
    exact addEntry_has
  · rintro v (⟨p, member, within⟩ | member)
    · rcases mem_addEntry member with member | ⟨e, given, rfl, _⟩
      · rcases within with within | isParameter
        · exact .inr ⟨p, member, within⟩
        · exact .inl (.inl (.inr ⟨p.1, keyDeclared member, isParameter⟩))
      · rcases within with within | isParameter
        · exact .inl (.inr (.inl within))
        · rcases isEntry e given with made | member
          · simp [made.parameters] at isParameter
          · exact .inl (.inl (.inr ⟨e, isDeclared member, isParameter⟩))
    · exact .inl (.inr (.inr (Scope.hasVar_of_mem_vars member)))

theorem unit_tracksFn {S : Fn → Prop} :
    Tracks Fn.id S (unit scriptMode file history u) (fun _ => True)
      fun bound f => f ∈ bound.bodies.map Prod.fst ∨ bound.declarations.entry = some f := by
  unfold unit
  have root : Tracks Fn.id S (Bind.fresh rootScope) (fun _ => True) fun _ _ => False :=
    .fresh (fun n => ⟨Nat.le_add_right n 5, trivial⟩) fun _ _ impossible => impossible.elim
  refine root.before fun root _ => ?_
  dsimp only
  refine (declareFns_tracksFn u.functions).bind fun r declared => ?_
  obtain ⟨declaredFns, scope⟩ := r
  have noFns : ∀ f ∈ scope.fns, f ∈ declaredFns.map Prod.fst := fun f member =>
    (declared.among f member).resolve_left List.not_mem_nil
  dsimp only
  refine (globals_tracks scope.holds_anything u.statements).other.before fun bound tracked => ?_
  obtain ⟨statements, scope'⟩ := bound
  have sameFns : scope'.fns = scope.fns := tracked.scope.same
  dsimp only
  refine (entryFn?_tracks (fun name => .freshOne (fun _ => ⟨rfl, rfl, rfl, rfl⟩) fun _ => ⟨rfl, rfl⟩)
    fun f member g same => ?_).bind fun entry isEntry => ?_
  · exact same ▸ .inr (noFns f (sameFns ▸ member))
  refine (functionBodies_tracks scope'.holds_anything declaredFns fun _ _ _ _ => trivial).other.before
    fun bodies trackedBodies => ?_
  refine Tracks.get.before fun state _ => .pure trivial fun f isNew => ?_
  rcases isNew with member | isEntry
  · obtain ⟨p, within, rfl⟩ := List.mem_map.1 member
    rcases mem_addEntry within with within | ⟨e, given, rfl, _⟩
    · exact .inl (.inr (trackedBodies.1 ▸ List.mem_map_of_mem within))
    · exact .inr ⟨e, given, rfl⟩
  · exact .inr ⟨f, isEntry, rfl⟩

end Binding

section

variable (scriptMode : Bool) (file : Option String) {history : List Declarations}
  (u : Source.Unit) {next : Nat}

/-- What a unit is bound to, and the census of variables behind it. -/
theorem bindUnit_tracked {F : Fn → Prop} {known : Var → Prop} (census : Census Var.id known next)
    (vars : ∀ d ∈ history, ∀ v ∈ d.vars, known v) (fns : ∀ d ∈ history, ∀ f ∈ d.fns, F f)
    (builtins : ∀ f, f.builtin.isSome = true → F f) :
    Binding.UnitTracked F (bindUnit scriptMode file history u next).1 ∧
    ∃ more : Var → Prop, (∀ v, known v → more v) ∧
      Census Var.id more (bindUnit scriptMode file history u next).2 ∧
      ∀ v, Binding.unitVars (bindUnit scriptMode file history u next).1 v → more v := by
  obtain ⟨⟨_, tracked⟩, grows⟩ := Binding.unit_tracks vars fns builtins ⟨next, .empty⟩
  exact ⟨tracked, grows known census fun _ => id⟩

/-- The bodies of a unit are tracked, whatever is known of the units before it. -/
theorem bindUnit_tracked_anyway :
    Binding.UnitTracked (fun _ => True) (bindUnit scriptMode file history u next).1 :=
  (Binding.unit_tracks (S := fun _ => True) (fun _ _ _ _ => trivial) (fun _ _ _ _ => trivial)
    fun _ _ => trivial).holds ⟨next, .empty⟩

/-- The census of functions behind a unit knows all that the unit has bodies for. -/
theorem bindUnit_trackedFn {known : Fn → Prop} (census : Census Fn.id known next) :
    ∃ more : Fn → Prop, (∀ f, known f → more f) ∧
      Census Fn.id more (bindUnit scriptMode file history u next).2 ∧
      ∀ f ∈ (bindUnit scriptMode file history u next).1.bodies.map Prod.fst, more f := by
  obtain ⟨_, grows⟩ := @Binding.unit_tracksFn file scriptMode history u known ⟨next, .empty⟩
  obtain ⟨more, wider, census', knows⟩ := grows known census fun _ => id
  exact ⟨more, wider, census', fun f member => knows f (.inl member)⟩

/-- The entry function of a unit is told apart from all others that it has bodies for. -/
theorem bindUnit_entry_unique {e : Fn}
    (isEntry : (bindUnit scriptMode file history u next).1.declarations.entry = some e) :
    ∀ f ∈ (bindUnit scriptMode file history u next).1.bodies.map Prod.fst, f.id = e.id → f = e := by
  obtain ⟨_, grows⟩ :=
    @Binding.unit_tracksFn file scriptMode history u (fun _ => False) ⟨next, .empty⟩
  obtain ⟨more, _, census, knows⟩ := grows (fun _ => False)
    ⟨fun _ impossible => impossible.elim, fun _ _ impossible => impossible.elim⟩ fun _ => id
  exact fun f member => census.unique f e (knows f (.inl member)) (knows e (.inr isEntry))

end

end ScriptLang
