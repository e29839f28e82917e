import ScriptLang.Proofs.BindingStmt
import ScriptLang.Proofs.UnitSymbols
import ScriptLang.Source.Sketch

/-! Where binding a unit reports nothing, its bodies are well typed, and so are the symbols
that it declares for later units. -/

namespace ScriptLang

/-- The type of what a function returns. A function made for global statements has none. -/
def Fn.resultType (f : Fn) : Option Ty := f.declaration.map fun _ => f.returns

namespace Binding

open Source (Token Name TypeClause)

variable {given : Prop} {c : BindContext} {file : Option String} {scope : Scope}

theorem rootScope_wellTyped (n : Nat) : (rootScope n).1.WellTyped := by
  refine rootScope_holds n ?_
  rw [builtins_eq]
  intro f member
  simp only [List.mem_cons, List.not_mem_nil, or_false] at member
  have noConstant (v : Var) (known : v.ty ≠ .error) (unknown : v.constant = none) : v.WellTyped :=
    ⟨known, fun value equal => by rw [unknown] at equal; contradiction⟩
  rcases member with rfl | rfl | rfl
  · refine ⟨by simp, ?_, ?_⟩ <;> simp [Builtin.parameters, Builtin.returns]
    exact noConstant _ (by simp) rfl
  · refine ⟨by simp, ?_, ?_⟩ <;> simp [Builtin.parameters, Builtin.returns]
  · refine ⟨by simp, ?_, ?_⟩ <;> simp [Builtin.parameters, Builtin.returns]
    exact noConstant _ (by simp) rfl

theorem parameters_sound {given : Prop} {done : List Var} (typed : given → ∀ v ∈ done, v.WellTyped)
    (ps : List Source.Parameter) :
    Sound given (parameters file done ps) fun vs => ∀ v ∈ vs, v.WellTyped := by
  induction ps generalizing done given with
  | nil => exact .pure typed
  | cons p ps ih =>
    unfold parameters
    refine (type?_sound p.type).bind fun t? => ?_
    dsimp only
    split
    · exact Sound.reported rfl fun _ =>
        (ih False.elim).mono id fun _ _ _ => trivial
    · refine Sound.bind (P := fun v => given → v.WellTyped) (.fresh ?_) fun v => ?_
      · rintro n ⟨_, t, rfl, known⟩ _
        exact ⟨known, fun value equal => by contradiction⟩
      · refine ih fun holds w member => ?_
        rcases List.mem_append.1 member with old | new
        · exact typed holds.1.1 w old
        · exact List.mem_singleton.1 new ▸ holds.2 holds.1.1

/-- The last steps of declaring a function. -/
theorem makeFn_sound {f : Source.Function} {ps : List Var} {returns : Ty}
    (typed : given → ∀ v ∈ ps, v.WellTyped) (known : given → returns ≠ .error) :
    Sound given (do
        let fn ← Bind.fresh (Fn.create f.name.text ps returns (some f.mark.id))
        match scope.declare? f.name.text (.fn fn) with
        | some scope => return (fn, scope)
        | none =>
          Bind.report file f.name.mark.range .symbolAlreadyDeclared [f.name.text]
          return (fn, scope)) fun r => r.1.WellTyped := by
  refine Sound.bind (P := fun fn => fn.WellTyped) (.fresh fun n holds => ?_) fun fn => ?_
  · exact ⟨known holds, typed holds, fun b equal => by contradiction⟩
  · cases scope.declare? f.name.text (.fn fn) with
    | none => exact Sound.refused rfl
    | some scope' => exact .pure And.right

theorem declareFn_sound (f : Source.Function) :
    Sound given (declareFn file scope f) fun r => r.1.WellTyped := by
  unfold declareFn
  refine (parameters_sound (fun _ v member => absurd member List.not_mem_nil) f.parameters).bind
    fun ps => ?_
  cases f.returns with
  | none => exact makeFn_sound And.right fun _ => by decide
  | some clause =>
    refine (type?_sound clause).bind fun t? => ?_
    refine makeFn_sound (fun holds => holds.1.2) ?_
    rintro ⟨_, t, rfl, known⟩
    exact known

theorem declareFns_sound {given : Prop} {scope : Scope} (fs : List Source.Function) :
    Sound given (declareFns file scope fs) fun r => ∀ f ∈ r.1.map Prod.fst, f.WellTyped := by
  induction fs generalizing given scope with
  | nil => exact .pure fun _ f member => absurd member List.not_mem_nil
  | cons f fs ih =>
    refine (declareFn_sound f).bind fun r => ?_
    refine ih.bind fun rest => ?_
    exact .pure fun ⟨⟨_, first⟩, typed⟩ => List.forall_mem_cons.2 ⟨first, typed⟩

theorem declareFns_declare {scope : Scope} (fs : List Source.Function) :
    Sound given (declareFns file scope fs) fun r =>
      (∀ f ∈ r.1.map Prod.fst, f.WellTyped) ∧ FnsDeclared scope (r.1.map Prod.fst) r.2 :=
  (declareFns_sound fs).and fun s => (declareFns_tracks (S := fun _ => False) fs).holds s

theorem globals_typed {given : Prop} {scope : Scope} (prepared : given → Prepared c scope)
    (ss : List Source.Stmt) :
    Sound given (globals c scope ss) fun bound =>
      Stmt.AllWellTyped Var.Assignable (c.function.map Fn.returns) bound.1 ∧
        bound.2.WellTyped := by
  induction ss generalizing given scope with
  | nil => exact .pure fun holds => ⟨trivial, (prepared holds).scope⟩
  | cons s ss ih =>
    refine (stmt_sound true prepared s).bind fun first => ?_
    refine (ih fun holds => ⟨holds.2.scope, (prepared holds.1).known⟩).bind fun rest => ?_
    exact .pure fun ⟨⟨_, bound⟩, typed, scope⟩ => ⟨⟨bound.stmt, typed⟩, scope⟩

theorem globals_sound (prepared : given → Prepared c scope) (ss : List Source.Stmt) :
    Sound given (globals c scope ss) fun bound =>
      (Stmt.AllWellTyped Var.Assignable (c.function.map Fn.returns) bound.1 ∧
        bound.2.WellTyped) ∧ bound.2.fns = scope.fns :=
  (globals_typed prepared ss).and fun s =>
    ((globals_tracks scope.holds_anything ss).holds s).scope.same

theorem functionBody_sound {fn : Fn} {f : Source.Function} (wellTyped : given → scope.WellTyped)
    (known : given → fn.WellTyped) :
    Sound given (functionBody c scope fn f)
      (Stmt.AllWellTyped Var.Assignable (some fn.returns)) := by
  refine (stmts_sound (fun holds => ⟨?_, ?_⟩) f.body).bind fun bound => .pure fun holds => holds.2.1
  · exact (holds_parameters (wellTyped holds).push (known holds).parameters).push
  · rintro _ equal
    exact Option.some.inj equal ▸ (known holds).known

theorem functionBodies_typed {given : Prop} (wellTyped : given → scope.WellTyped)
    (declared : List (Fn × Source.Function))
    (known : given → ∀ f ∈ declared.map Prod.fst, f.WellTyped) :
    Sound given (functionBodies c scope declared) fun bodies =>
      ∀ p ∈ bodies, Stmt.AllWellTyped Var.Assignable (some p.1.returns) p.2 := by
  induction declared generalizing given with
  | nil => exact .pure fun _ p member => absurd member List.not_mem_nil
  | cons p declared ih =>
    refine (functionBody_sound wellTyped fun holds => known holds p.1 List.mem_cons_self).bind
      fun body => ?_
    refine (ih (fun holds => wellTyped holds.1) fun holds f member =>
      known holds.1 f (List.mem_cons_of_mem _ member)).bind fun bodies => ?_
    exact .pure fun ⟨⟨_, first⟩, rest⟩ => List.forall_mem_cons.2 ⟨first, rest⟩

theorem functionBodies_sound (wellTyped : given → scope.WellTyped)
    (declared : List (Fn × Source.Function))
    (known : given → ∀ f ∈ declared.map Prod.fst, f.WellTyped) :
    Sound given (functionBodies c scope declared) fun bodies =>
      (∀ p ∈ bodies, Stmt.AllWellTyped Var.Assignable (some p.1.returns) p.2) ∧
        bodies.map Prod.fst = declared.map Prod.fst :=
  (functionBodies_typed wellTyped declared known).and fun s =>
    ((functionBodies_tracks scope.holds_anything declared fun _ _ _ _ => trivial).holds s).1

/-- An entry function takes no arguments and gives no value. -/
def PlainEntry (entry : Option Fn) : Prop :=
  ∀ e, entry = some e → e.parameters = [] ∧ e.returns = .void

theorem entryFn?_plain {declared : List (Fn × Source.Function)} {hasGlobals : Bool}
    (among : given → ∀ f ∈ scope.fns, f ∈ declared.map Prod.fst) :
    Sound given (entryFn? c scope declared hasGlobals) PlainEntry := by
  have create (name : String) : Sound given (do
      return some (← Bind.fresh (Fn.create name [] .void none))) PlainEntry := by
    refine Sound.bind (P := fun e => e.parameters = [] ∧ e.returns = .void)
      (.fresh fun _ _ => ⟨rfl, rfl⟩) fun e => .pure ?_
    rintro ⟨_, plain⟩ e' equal
    exact Option.some.inj equal ▸ plain
  have wrong (entry : Option Fn) : Sound False (Pure.pure entry : Bind (Option Fn)) fun _ => True :=
    .pure fun _ => trivial
  unfold entryFn?
  split
  · exact create scriptName
  · cases found : (scope.lookupLocal? mainName).bind Symbol.fn? with
    | none =>
      dsimp only
      split
      · exact create mainName
      · exact .pure fun _ e none => by contradiction
    | some main =>
      have member := mem_fns_of_lookupLocal found
      dsimp only
      cases isDeclared : declared.find? (·.1.id = main.id) with
      | none =>
        refine .pure fun holds => ?_
        obtain ⟨p, within, same⟩ := List.mem_map.1 (among holds main member)
        have other := List.find?_eq_none.1 isDeclared p within
        simp [same] at other
      | some p =>
        dsimp only
        split
        · refine Sound.reported rfl fun _ => ?_
          split
          · exact Sound.reported rfl fun _ => wrong _
          · exact wrong _
        next fits =>
          have plain : main.parameters = [] ∧ main.returns = .void := by
            simp only [Bool.or_eq_true, not_or, Bool.not_eq_true, Bool.not_eq_false',
              bne_eq_false_iff_eq] at fits
            exact ⟨List.isEmpty_iff.1 fits.1, fits.2⟩
          split
          · exact Sound.reported rfl fun _ => wrong _
          · refine .pure fun _ e equal => ?_
            exact Option.some.inj equal ▸ plain

theorem entryFn?_sound {declared : List (Fn × Source.Function)} {hasGlobals : Bool}
    (among : given → ∀ f ∈ scope.fns, f ∈ declared.map Prod.fst) :
    Sound given (entryFn? c scope declared hasGlobals) fun entry =>
      PlainEntry entry ∧ EntryOf scope entry :=
  (entryFn?_plain among).and fun s => (entryFn?_gives fun _ => False).holds s

structure UnitTyped (bound : BoundUnit) : Prop where
  bodies : ∀ p ∈ bound.bodies,
    Stmt.AllWellTyped Var.Assignable p.1.resultType p.2 ∧ p.1.WellTyped
  declared : bound.declarations.Hold Symbol.WellTyped
  entry : PlainEntry bound.declarations.entry

theorem unit_sound {scriptMode : Bool} {history : List Declarations} {u : Source.Unit}
    (typed : ∀ d ∈ history, d.Hold Symbol.WellTyped) :
    Sound True (unit scriptMode file history u) UnitTyped := by
  unfold unit
  refine Sound.bind (P := Scope.WellTyped) (.fresh fun n _ => rootScope_wellTyped n) fun root => ?_
  dsimp only
  refine (declareFns_declare u.functions).bind fun r => ?_
  obtain ⟨declaredFns, scope⟩ := r
  dsimp only
  have prepared (holds : (True ∧ root.WellTyped) ∧ (∀ f ∈ declaredFns.map Prod.fst, f.WellTyped) ∧
      FnsDeclared (historyScope root history).push (declaredFns.map Prod.fst) scope) :
      scope.WellTyped := holds.2.2.holds _ (holds.1.2.history typed).push holds.2.1
  refine (globals_sound (fun holds => ⟨prepared holds, fun _ equal => by contradiction⟩)
    u.statements).bind fun bound => ?_
  obtain ⟨statements, scope'⟩ := bound
  dsimp only
  refine (entryFn?_sound fun holds f member => ?_).bind fun entry => ?_
  · obtain ⟨⟨_, _, declared⟩, _, sameFns⟩ := holds
    exact (declared.among f (sameFns ▸ member)).resolve_left List.not_mem_nil
  refine (functionBodies_sound (fun holds => holds.1.2.1.2) declaredFns
    fun holds => holds.1.1.2.1).bind fun bodies => ?_
  refine Sound.bind (P := fun _ => True) (.get fun _ _ => trivial) fun state => ?_
  refine .pure fun holds => ?_
  obtain ⟨⟨⟨⟨⟨_, fnsTyped, declared⟩, ⟨bodyTyped, scopeTyped⟩, sameFns⟩, plain, isEntry⟩,
    bodiesTyped, sameKeys⟩, _⟩ := holds
  refine ⟨fun p member => ?_, ⟨scopeTyped.vars, scopeTyped.fns⟩, plain⟩
  have isDeclared {e : Fn} (member : e ∈ scope'.fns) : e ∈ declaredFns.map Prod.fst :=
    (declared.among e (sameFns ▸ member)).resolve_left List.not_mem_nil
  rcases mem_addEntry member with member | ⟨e, entry, rfl, new⟩
  · have key : p.1 ∈ declaredFns.map Prod.fst := sameKeys ▸ List.mem_map_of_mem member
    obtain ⟨declaration, equal⟩ := Option.isSome_iff_exists.1 (declared.shape p.1 key).2.1
    refine ⟨?_, fnsTyped p.1 key⟩
    rw [Fn.resultType, equal]
    exact bodiesTyped p member
  · rcases isEntry e entry with made | member
    · refine ⟨?_, by simp [made.returns], by simp [made.parameters], by simp [made.builtin]⟩
      rw [Fn.resultType, made.declaration]
      exact bodyTyped
    · obtain ⟨p, within, same⟩ := List.mem_map.1 (sameKeys ▸ isDeclared member)
      have isOld : bodies.any (·.1.id = e.id) = true :=
        List.any_eq_true.2 ⟨p, within, by simp [same]⟩
      rw [isOld] at new
      contradiction

end Binding

/-- Declarations of units that were bound in a row without errors, the newest first. -/
inductive ErrorFree : List Declarations → Prop
  | nil : ErrorFree []
  | cons {history : List Declarations} (scriptMode : Bool) (file : Option String)
      (u : Source.Unit) (next : Nat) : ErrorFree history →
      (bindUnit scriptMode file history u next).1.declarations.diagnostics.hasErrors = false →
      ErrorFree ((bindUnit scriptMode file history u next).1.declarations :: history)

section

variable {scriptMode : Bool} {file : Option String} {history : List Declarations}
  {u : Source.Unit} {next : Nat}

theorem bindUnit_typed (typed : ∀ d ∈ history, d.Hold Symbol.WellTyped)
    (noErrors :
      (bindUnit scriptMode file history u next).1.declarations.diagnostics.hasErrors = false) :
    Binding.UnitTyped (bindUnit scriptMode file history u next).1 :=
  (Binding.unit_sound typed ⟨next, .empty⟩ noErrors).2 trivial

theorem ErrorFree.typed (errorFree : ErrorFree history) :
    ∀ d ∈ history, d.Hold Symbol.WellTyped := by
  induction errorFree with
  | nil => exact fun _ member => absurd member List.not_mem_nil
  | cons _ _ _ _ _ noErrors ih =>
    exact List.forall_mem_cons.2 ⟨(bindUnit_typed ih noErrors).declared, ih⟩

/-- A unit that is bound without errors behind units without errors has well-typed bodies. -/
theorem bindUnit_wellTyped (errorFree : ErrorFree history)
    (noErrors :
      (bindUnit scriptMode file history u next).1.declarations.diagnostics.hasErrors = false) :
    ∀ p ∈ (bindUnit scriptMode file history u next).1.bodies,
      Stmt.AllWellTyped Var.Assignable p.1.resultType p.2 :=
  fun p member => ((bindUnit_typed errorFree.typed noErrors).bodies p member).1

end

namespace ScaledSum

open Source

def first : Source.Unit := (Sketch.Unit.place ⟨none, [
  .statement (.declare .letKeyword "base" none (.literal (.int 2))),
  .function ⟨"scale", [("x", "float")], some "float",
    [.ret (some (.binary (.name "x") .star (.call "float" [.name "base"])))]⟩]⟩ .start).1

def second : Source.Unit := (Sketch.Unit.place ⟨none, [
  .statement (.declare .varKeyword "total" none (.literal (.float 0.0))),
  .statement (.forIn "i" (.range (.literal (.int 1)) (.name "base"))
    (.block [.expr (.assign "total" .plusEquals (.call "scale" [.name "i"]))])),
  .statement (.expr (.call "print" [.name "total"]))]⟩ .start).1

def history : List Declarations := [(bindUnit false none [] first 0).1.declarations]

end ScaledSum

theorem scaledSum_wellTyped :
    ErrorFree ScaledSum.history ∧
    (bindUnit false none ScaledSum.history ScaledSum.second 20).1.bodies.length = 1 ∧
    ∀ p ∈ (bindUnit false none ScaledSum.history ScaledSum.second 20).1.bodies,
      Stmt.AllWellTyped Var.Assignable p.1.resultType p.2 := by
  have errorFree : ErrorFree ScaledSum.history :=
    .cons false none ScaledSum.first 0 .nil (by decide +kernel)
  exact ⟨errorFree, by decide +kernel, bindUnit_wellTyped errorFree (by decide +kernel)⟩

end ScriptLang
