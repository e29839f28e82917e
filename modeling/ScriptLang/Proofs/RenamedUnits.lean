import Mathlib.Data.List.Find
import Mathlib.Data.List.Nodup
import ScriptLang.Proofs.Assembly
import ScriptLang.Proofs.RenamedBinding
import ScriptLang.Proofs.RenamedLowering

/-! The heads of functions, the entry of a unit and the bodies of functions are bound to the same under
other numbers, and so are they lowered. Where a unit stands behind symbols whose numbers stay, and
its own numbers stay as well, nothing of what it is compiled to changes. -/

namespace ScriptLang

namespace Source

def parameterCount (done : List String) : List Parameter → Nat
  | [] => 0
  | p :: ps =>
    if p.name.text ∈ done then parameterCount done ps
    else 1 + parameterCount (done ++ [p.name.text]) ps

namespace Function

def headCount (f : Function) : Nat := parameterCount [] f.parameters + 1

def bodyCount (f : Function) : Nat := Stmt.symbolCountOf f.body

end Function

end Source

theorem Scope.vars_replace_fn {scope : Scope} {name : String} (f : Fn)
    (new : scope.inner.contains name = false) :
    (scope.replace name (.fn f)).vars = scope.vars := by
  simp [vars, symbols, replace, OrderedMap.values_insert_of_new new, Symbol.var?]

namespace Binding

variable {ρ : Renaming} {file file' : Option String} {among declares : String → Prop} {a b : Scope}
  {n n' : Nat}

theorem parameters_renames {n n' : Nat} (done : List Var) (ps : List Source.Parameter)
    (shifts : ρ.Shifts n n' (Source.parameterCount (done.map Var.name) ps)) :
    Bind.Parallel (file = file') n n' (Source.parameterCount (done.map Var.name) ps)
      (List.map (Var.rename ρ) · = ·) (parameters file done ps)
      (parameters file' (done.map (Var.rename ρ)) ps) := by
  induction ps generalizing n n' done with
  | nil => exact .pure rfl
  | cons p ps ih =>
    have isDone : (done.map (Var.rename ρ)).any (·.name = p.name.text) =
        done.any (·.name = p.name.text) := by rw [List.any_map]; rfl
    have among : p.name.text ∈ done.map Var.name ↔ done.any (·.name = p.name.text) = true := by
      simp
    rw [Source.parameterCount] at shifts ⊢
    unfold parameters
    refine (type?_renames p.type).behind ?_
    rintro t? _ rfl
    dsimp only
    rw [isDone]
    by_cases repeated : done.any (·.name = p.name.text) = true
    · rw [if_pos (among.2 repeated)] at shifts ⊢
      rw [if_pos repeated, if_pos repeated]
      exact .reported (ih done shifts)
    · rw [if_neg (mt among.1 repeated)] at shifts ⊢
      rw [if_neg repeated, if_neg repeated]
      refine Bind.Parallel.bind (R := fun v v' => v.rename ρ = v' ∧ v.name = p.name.text)
        (.fresh rfl rfl ⟨?_, rfl⟩) ?_
      · rw [List.length_map]
        exact congrArg (fun id => ({ id, name := _, ty := _, kind := _, access := _ } : Var))
          shifts.front.first
      · rintro v _ ⟨rfl, named⟩
        have rest := @ih (n + 1) (n' + 1) (done ++ [v])
        rw [List.map_append, List.map_append, List.map_singleton, named] at rest
        exact rest shifts.back

theorem returnType_renames (clause : Option Source.TypeClause) :
    Bind.Parallel (file = file') n n' 0 (fun t t' => t = t') (returnType file clause)
      (returnType file' clause) := by
  cases clause with
  | none => exact .pure rfl
  | some clause =>
    refine (type?_renames clause).behind ?_
    rintro t? _ rfl
    exact .pure rfl

def head (file : Option String) (f : Source.Function) : Bind Fn := do
  let ps ← parameters file [] f.parameters
  let returns ← returnType file f.returns
  Bind.fresh (Fn.create f.name.text ps returns (some f.mark.id))

def addFn (file : Option String) (scope : Scope) (f : Source.Function) (fn : Fn) :
    Bind (Fn × Scope) :=
  match scope.declare? f.name.text (.fn fn) with
  | some scope => return (fn, scope)
  | none => do
    Bind.report file f.name.mark.range .symbolAlreadyDeclared [f.name.text]
    return (fn, scope)

theorem declareFn_eq_head (file : Option String) (scope : Scope) (f : Source.Function) :
    declareFn file scope f = head file f >>= addFn file scope f := by
  rw [declareFn_eq]
  rfl

theorem head_renames (f : Source.Function) (shifts : ρ.Shifts n n' f.headCount) :
    Bind.Parallel (file = file') n n' f.headCount (Fn.rename ρ · = ·) (head file f) (head file' f) := by
  refine (parameters_renames [] f.parameters shifts.front).bind ?_
  rintro ps _ rfl
  refine (returnType_renames f.returns).behind ?_
  rintro returns _ rfl
  refine .fresh rfl rfl ?_
  rw [Fn.rename_plain]
  exact congrArg (fun id =>
    ({ id, name := _, parameters := _, returns := _, declaration := _, builtin := none } : Fn))
    shifts.back.first

theorem addFn_renames (renamed : a.Renamed ρ among declares b) {f : Source.Function}
    (isDeclared : declares f.name.text) (fn : Fn) :
    Bind.Parallel (file = file') n n' 0 (Scope.RenamedBehind ρ among declares a b (Fn.rename ρ))
      (addFn file a f fn) (addFn file' b f (fn.rename ρ)) := by
  unfold addFn
  rcases renamed.declare f.name.text (.fn fn) isDeclared with
    ⟨taken, taken'⟩ | ⟨new, new', declared, declared'⟩
  · rw [taken]
    rw [Symbol.rename] at taken'
    rw [taken']
    exact .reported (.pure (.same renamed rfl))
  · rw [declared]
    rw [Symbol.rename] at declared'
    rw [declared']
    refine .pure ⟨rfl, renamed.replace f.name.text (.fn fn), [], ?_, ?_⟩
    · rw [Scope.vars_replace_fn fn new, List.append_nil]
    · rw [Scope.vars_replace_fn _ new', List.map_nil, List.append_nil]

theorem declareFn_renames (renamed : a.Renamed ρ among declares b) {f : Source.Function}
    (isDeclared : declares f.name.text) (shifts : ρ.Shifts n n' f.headCount) :
    Bind.Parallel (file = file') n n' f.headCount (Scope.RenamedBehind ρ among declares a b (Fn.rename ρ))
      (declareFn file a f) (declareFn file' b f) := by
  rw [declareFn_eq_head, declareFn_eq_head]
  refine (head_renames f shifts).followed ?_
  rintro fn _ rfl
  exact addFn_renames renamed isDeclared fn

theorem declareFns_renames (renamed : a.Renamed ρ among declares b) (fs : List Source.Function)
    (areDeclared : ∀ f ∈ fs, declares f.name.text)
    (shifts : ρ.Shifts n n' (fs.map Source.Function.headCount).sum) :
    Bind.Parallel (file = file') n n' (fs.map Source.Function.headCount).sum
      (Scope.RenamedBehind ρ among declares a b (List.map (Prod.map (Fn.rename ρ) id)))
      (declareFns file a fs) (declareFns file' b fs) := by
  induction fs generalizing a b n n' with
  | nil => exact .pure (.same renamed rfl)
  | cons f fs ih =>
    obtain ⟨first, rest⟩ := List.forall_mem_cons.1 areDeclared
    refine (declareFn_renames renamed first shifts.front).bind fun r r' behind => ?_
    refine (ih behind.scope rest shifts.back).followed fun u u' behind' => ?_
    exact .pure (behind.trans behind' (by simp [behind.item, behind'.item]))

def entryCount (c : BindContext) (scope : Scope) (hasGlobals : Bool) : Nat :=
  if c.scriptMode then 1
  else match (scope.lookupLocal? mainName).bind Symbol.fn? with
    | none => if hasGlobals then 1 else 0
    | some _ => 0

theorem lookupMain_renames (renamed : a.Renamed ρ among declares b) (isDeclared : declares mainName) :
    (b.lookupLocal? mainName).bind Symbol.fn? =
      ((a.lookupLocal? mainName).bind Symbol.fn?).map (Fn.rename ρ) := by
  rw [renamed.inner mainName isDeclared]
  cases a.lookupLocal? mainName with
  | none => rfl
  | some symbol => cases symbol <;> rfl

theorem entryFn?_renames {c c' : BindContext} (context : c.Renamed ρ c')
    (renamed : a.Renamed ρ among declares b) (isDeclared : declares mainName)
    {declared declared' : List (Fn × Source.Function)}
    (found : ∀ main, (a.lookupLocal? mainName).bind Symbol.fn? = some main →
      (declared'.find? (·.1.id = (main.rename ρ).id)).isSome =
        (declared.find? (·.1.id = main.id)).isSome)
    {same : Prop} (alike : same → c.file = c'.file ∧ ∀ main,
      (a.lookupLocal? mainName).bind Symbol.fn? = some main →
        (declared'.find? (·.1.id = (main.rename ρ).id)).map Prod.snd =
          (declared.find? (·.1.id = main.id)).map Prod.snd)
    {hasGlobals : Bool} (shifts : ρ.Shifts n n' (entryCount c a hasGlobals)) :
    Bind.Parallel same n n' (entryCount c a hasGlobals) (Option.map (Fn.rename ρ) · = ·)
      (entryFn? c a declared hasGlobals) (entryFn? c' b declared' hasGlobals) := by
  have create (name : String) (shifts : ρ.Shifts n n' 1) :
      Bind.Parallel same n n' 1 (Option.map (Fn.rename ρ) · = ·)
        (do return some (← Bind.fresh (Fn.create name [] .void none)))
        (do return some (← Bind.fresh (Fn.create name [] .void none))) := by
    refine Bind.Parallel.followed (R := (Fn.rename ρ · = ·)) (.fresh rfl rfl ?_) ?_
    · exact congrArg (fun id =>
        ({ id, name, parameters := [], returns := .void, declaration := none, builtin := none } : Fn))
        shifts.first
    · rintro e _ rfl
      exact .pure rfl
  unfold entryCount at shifts ⊢
  unfold entryFn?
  rw [context.scriptMode, lookupMain_renames renamed isDeclared]
  split
  next isScript =>
    rw [if_pos isScript] at shifts
    exact create scriptName shifts
  next isProgram =>
    rw [if_neg isProgram] at shifts
    cases isMain : (a.lookupLocal? mainName).bind Symbol.fn? with
    | none =>
      rw [isMain] at shifts
      dsimp only [Option.map_none] at shifts ⊢
      split
      next has =>
        rw [if_pos has] at shifts
        exact create mainName shifts
      next => exact .pure rfl
    | some main =>
      have both := found main isMain
      have sources (isSame : same) := (alike isSame).2 main isMain
      dsimp only [Option.map_some]
      generalize declared.find? (·.1.id = main.id) = inA at both sources ⊢
      generalize declared'.find? (·.1.id = (main.rename ρ).id) = inB at both sources ⊢
      cases inA with
      | none =>
        obtain rfl := Option.isNone_iff_eq_none.1 (by simpa using both)
        exact .pure rfl
      | some p =>
        obtain ⟨p', rfl⟩ := Option.isSome_iff_exists.1 both
        have place (m : Message) : Bind.Parallel same n n' 0 (fun _ _ => True)
            (Bind.report c.file p.2.name.mark.range m [])
            (Bind.report c'.file p'.2.name.mark.range m []) :=
          .report fun isSame => ⟨(alike isSame).1, by rw [Option.some.inj (sources isSame)], rfl⟩
        have isEmpty : (main.rename ρ).parameters.isEmpty = main.parameters.isEmpty := by
          simp [Fn.rename, Fn.renumber, Fn.relabel]
        dsimp only
        rw [isEmpty, Fn.returns_rename]
        have mixed : Bind.Parallel same n n' 0 (Option.map (Fn.rename ρ) · = ·)
            (do
              if hasGlobals then
                Bind.report c.file p.2.name.mark.range .cannotMixMainAndGlobalStatements []
              return some main)
            (do
              if hasGlobals then
                Bind.report c'.file p'.2.name.mark.range .cannotMixMainAndGlobalStatements []
              return some (main.rename ρ)) := by
          split
          · exact (place .cannotMixMainAndGlobalStatements).behind fun _ _ _ => .pure rfl
          · exact .pure rfl
        split
        · exact (place .mainMustHaveCorrectSignature).behind fun _ _ _ => mixed
        · exact mixed

theorem declareParameters_renamed (renamed : a.Renamed ρ among (fun _ => True) b) (ps : List Var) :
    (ps.foldl (fun s p => (s.declare? p.name (.var p)).getD s) a).Renamed ρ among (fun _ => True)
      ((ps.map (Var.rename ρ)).foldl (fun s p => (s.declare? p.name (.var p)).getD s) b) := by
  induction ps generalizing a b with
  | nil => exact renamed
  | cons p ps ih =>
    refine ih ?_
    dsimp only
    rw [Var.name_rename]
    rcases renamed.declare p.name (.var p) trivial with
      ⟨taken, taken'⟩ | ⟨_, _, declared, declared'⟩
    · rw [taken]
      rw [Symbol.rename] at taken'
      rw [taken']
      exact renamed
    · rw [declared]
      rw [Symbol.rename] at declared'
      rw [declared']
      exact renamed.replace p.name (.var p)

theorem functionBody_renames {c c' : BindContext} (context : c.Renamed ρ c')
    (renamed : a.Renamed ρ among declares b) {fn : Fn} (own : fn.builtin = none)
    {f : Source.Function} (names : ∀ name ∈ Source.Stmt.namesOf f.body, among name)
    (shifts : ρ.Shifts n n' f.bodyCount) :
    Bind.Parallel (c.file = c'.file) n n' f.bodyCount (Body.rename ρ · = ·) (functionBody c a fn f)
      (functionBody c' b (fn.rename ρ) f) := by
  have inner := declareParameters_renamed (renamed.push fun _ => True) fn.parameters
  rw [← Fn.parameters_rename own] at inner
  have context' : BindContext.Renamed ρ { c with function := some fn }
      { c' with function := some (fn.rename ρ) } := { context with function := rfl }
  refine (stmts_renames context' (inner.push fun _ => True) f.body names
    (fun _ _ _ _ => trivial) shifts).followed fun r r' behind => ?_
  exact .pure behind.item

end Binding

def Bodies.rename (κ : Relabelling) (bodies : Bodies) : Bodies :=
  bodies.map (Prod.map (Fn.rename κ) (Body.rename κ))

namespace Binding

variable {ρ : Renaming} {among declares : String → Prop} {a b : Scope} {n n' : Nat}

theorem functionBodies_renames {c c' : BindContext} (context : c.Renamed ρ c')
    (renamed : a.Renamed ρ among declares b) (declared : List (Fn × Source.Function))
    (own : ∀ p ∈ declared, p.1.builtin = none)
    (names : ∀ p ∈ declared, ∀ name ∈ Source.Stmt.namesOf p.2.body, among name)
    (shifts : ρ.Shifts n n' (declared.map (·.2.bodyCount)).sum) :
    Bind.Parallel (c.file = c'.file) n n' (declared.map (·.2.bodyCount)).sum (Bodies.rename ρ · = ·)
      (functionBodies c a declared)
      (functionBodies c' b (declared.map (Prod.map (Fn.rename ρ) id))) := by
  induction declared generalizing n n' with
  | nil => exact .pure rfl
  | cons p declared ih =>
    obtain ⟨own, ownRest⟩ := List.forall_mem_cons.1 own
    obtain ⟨names, namesRest⟩ := List.forall_mem_cons.1 names
    refine (functionBody_renames context renamed own names shifts.front).bind ?_
    rintro body _ rfl
    refine (ih ownRest namesRest shifts.back).followed ?_
    rintro bodies _ rfl
    exact .pure rfl

end Binding

def Bodies.lowerCount (bodies : Bodies) : Nat := (bodies.map (Stmt.lowerCountOf ·.2)).sum

theorem Bodies.lowerCount_rename {κ : Relabelling} (bodies : Bodies) :
    (bodies.rename κ).lowerCount = bodies.lowerCount := by
  have one (p : Fn × Body) : Stmt.lowerCountOf (Body.rename κ p.2) = Stmt.lowerCountOf p.2 := by
    rw [Body.rename, ← Stmt.renameAll_eq_map, Stmt.lowerCountOf_rename]
  simp only [lowerCount, rename, List.map_map, Function.comp_def, Prod.map_snd, one]

namespace Compilation

variable {κ : Relabelling} {options : Options} {file file' : Option String} {u u' : Source.Unit}

theorem lowerBodies_count (bodies : Bodies) (n : Nat) :
    (lowerBodies options file u bodies n).2 = n + bodies.lowerCount := by
  induction bodies generalizing n with
  | nil => rfl
  | cons p bodies ih =>
    have first : (p.2.lower p.1.returns n).2 = n + Stmt.lowerCountOf p.2 :=
      Stmt.lowerAll_count p.2 n
    rw [lowerBodies_cons]
    dsimp only
    rw [ih, first, Nat.add_assoc]
    rfl

theorem lowerBodies_append (as bs : Bodies) (n : Nat) :
    lowerBodies options file u (as ++ bs) n =
      let first := lowerBodies options file u as n
      let second := lowerBodies options file u bs first.2
      ((first.1.1 ++ second.1.1, first.1.2 ++ second.1.2), second.2) := by
  induction as generalizing n with
  | nil => rfl
  | cons p as ih =>
    rw [List.cons_append, lowerBodies_cons, lowerBodies_cons, ih]
    simp only [List.cons_append, List.append_assoc]

/-- The same bodies under other numbers, and reports for both or for neither. -/
structure LoweredAlike (κ : Relabelling) (r r' : Bodies × List Diagnostic) : Prop where
  bodies : r'.1 = r.1.rename κ
  reports : r'.2 = [] ↔ r.2 = []

/-- Bodies under other numbers are lowered to the same code under these. -/
theorem lowerBodies_rename {n n' : Nat} (bodies : Bodies) (shifts : κ.Shifts n n' bodies.lowerCount) :
    LoweredAlike κ (lowerBodies options file u bodies n).1
      (lowerBodies options file' u' (bodies.rename κ) n').1 := by
  induction bodies generalizing n n' with
  | nil => exact ⟨rfl, Iff.rfl⟩
  | cons p bodies ih =>
    obtain ⟨f, body⟩ := p
    have lowered : (body.rename κ).lower f.returns n' = _ := Body.lower_rename f.returns shifts.front
    have stop : (body.lower f.returns n).2 = n + Stmt.lowerCountOf body := Stmt.lowerAll_count body n
    have rest := ih shifts.back
    have kept : (if options.removeUnreachable then
          ((body.lower f.returns n).1.rename κ).removeUnreachable
        else (body.lower f.returns n).1.rename κ) =
        (if options.removeUnreachable then (body.lower f.returns n).1.removeUnreachable
        else (body.lower f.returns n).1).rename κ := by
      split
      · exact Body.removeUnreachable_rename _
      · rfl
    rw [Bodies.rename, List.map_cons, Prod.map_apply, lowerBodies_cons, lowerBodies_cons]
    simp only [Fn.returns_rename, lowered, stop, Body.allPathsReturn_rename, kept]
    refine ⟨congrArg (List.cons _) rest.bodies, ?_⟩
    rw [List.append_eq_nil_iff, List.append_eq_nil_iff]
    refine and_congr ?_ rest.reports
    have returns : returnsValue (f.rename κ) = returnsValue f := rfl
    rw [returns]
    split <;> simp

/-- All reports of lowering are errors. -/
theorem lowerBodies_noErrors_iff (bodies : Bodies) (n : Nat) :
    (lowerBodies options file u bodies n).1.2.any Diagnostic.isError = false ↔
      (lowerBodies options file u bodies n).1.2 = [] := by
  induction bodies generalizing n with
  | nil => exact ⟨fun _ => rfl, fun _ => rfl⟩
  | cons p bodies ih =>
    rw [lowerBodies_cons]
    dsimp only
    rw [List.any_append, Bool.or_eq_false_iff, List.append_eq_nil_iff, ih]
    refine and_congr_left fun _ => ?_
    split <;> simp [missingReturn_isError]

end Compilation

def Renaming.identity : Renaming := ⟨id, id, Function.injective_id⟩

/-- The symbol stays as it is. -/
def Renaming.Keeps (ρ : Renaming) (symbol : Symbol) : Prop := symbol.rename ρ = symbol

section

variable {ρ : Renaming} {among declares : String → Prop}

theorem Fn.renumber_eq_self {number : Nat → Nat} (same : ∀ n, number n = n) (f : Fn) :
    f.renumber number = f := by
  have parameters : f.parameters.map (Var.renumber number) = f.parameters :=
    List.map_id'' (fun v => by rw [Var.renumber, same]) f.parameters
  rw [renumber, parameters, same]

theorem Fn.rename_identity (f : Fn) : f.rename Renaming.identity = f := by
  rw [rename_plain]
  split <;> exact renumber_eq_self (fun _ => rfl) f

theorem Renaming.identity_keeps (symbol : Symbol) : identity.Keeps symbol := by
  cases symbol with
  | var v => rfl
  | fn f => exact congrArg Symbol.fn f.rename_identity

theorem Scope.Holds.renamed {scope : Scope} (kept : scope.Holds ρ.Keeps) :
    scope.Renamed ρ among declares scope := by
  refine ⟨fun name _ => ?_, fun name _ => ?_⟩
  · cases found : scope.lookup? name with
    | none => rfl
    | some symbol => exact congrArg some (kept.lookup found).symm
  · cases found : scope.lookupLocal? name with
    | none => rfl
    | some symbol =>
      have member : symbol ∈ scope.inner.values := OrderedMap.mem_values_of_get? found
      exact congrArg some (kept scope.inner List.mem_cons_self symbol member).symm

abbrev Scope.Stays (ρ : Renaming) (scope : Scope) : Prop :=
  scope.Renamed ρ (fun _ => True) (fun _ => True) scope

theorem Scope.stays_identity (scope : Scope) : scope.Stays .identity :=
  Scope.Holds.renamed fun _ _ symbol _ => Renaming.identity_keeps symbol

end

namespace Binding

variable {scriptMode : Bool} {file : Option String} {history : List Declarations}
  {u : Source.Unit} {next : Nat}

def headCounts (fs : List Source.Function) : Nat := (fs.map Source.Function.headCount).sum

theorem declareFns_count (scope : Scope) (fs : List Source.Function) (s : BindState) :
    (declareFns file scope fs s).2.nextId = s.nextId + headCounts fs := by
  have parallel : Bind.Parallel _ s.nextId s.nextId (headCounts fs) _ (declareFns file scope fs)
      (declareFns file scope fs) :=
    declareFns_renames scope.stays_identity fs (fun _ _ => trivial) fun _ _ => rfl
  exact (parallel s.diagnostics s.diagnostics).1

variable {c : BindContext}

theorem globals_count (context : c.Renamed Renaming.identity c) (scope : Scope) (ss : List Source.Stmt)
    (s : BindState) :
    (globals c scope ss s).2.nextId = s.nextId + Source.Stmt.symbolCountOf ss := by
  have parallel : Bind.Parallel _ s.nextId s.nextId (Source.Stmt.symbolCountOf ss) _
      (globals c scope ss) (globals c scope ss) :=
    globals_renames context scope.stays_identity ss (fun _ _ => trivial)
      (fun _ _ _ _ => trivial) fun _ _ => rfl
  exact (parallel s.diagnostics s.diagnostics).1

theorem entryFn?_count (context : c.Renamed Renaming.identity c) (scope : Scope)
    (declared : List (Fn × Source.Function)) (hasGlobals : Bool) (s : BindState) :
    (entryFn? c scope declared hasGlobals s).2.nextId = s.nextId + entryCount c scope hasGlobals := by
  have parallel : Bind.Parallel _ s.nextId s.nextId (entryCount c scope hasGlobals) _
      (entryFn? c scope declared hasGlobals) (entryFn? c scope declared hasGlobals) :=
    entryFn?_renames context scope.stays_identity trivial
      (fun main _ => by rw [Fn.rename_identity]) False.elim fun _ _ => rfl
  exact (parallel s.diagnostics s.diagnostics).1

theorem functionBodies_count (context : c.Renamed Renaming.identity c) (scope : Scope)
    {declared : List (Fn × Source.Function)} (own : ∀ p ∈ declared, p.1.builtin = none)
    (s : BindState) : (functionBodies c scope declared s).2.nextId =
      s.nextId + (declared.map (·.2.bodyCount)).sum := by
  have parallel : Bind.Parallel _ s.nextId s.nextId (declared.map (·.2.bodyCount)).sum _
      (functionBodies c scope declared) _ :=
    functionBodies_renames context scope.stays_identity declared own (fun _ _ _ _ => trivial)
      fun _ _ => rfl
  exact (parallel s.diagnostics s.diagnostics).1

variable {scriptMode : Bool} {history : List Declarations} {u : Source.Unit} {next : Nat}

theorem renamed_unitContext {ρ : Renaming} {file' : Option String} {u' : Source.Unit} :
    (unitContext scriptMode file u).Renamed ρ (unitContext scriptMode file' u') := ⟨rfl, rfl, rfl⟩

theorem headsPass_end :
    (headsPass file history u next).2.nextId = next + 5 + headCounts u.functions :=
  declareFns_count _ _ _

theorem globalsPass_end : (globalsPass scriptMode file history u next).2.nextId =
    (headsPass file history u next).2.nextId + Source.Stmt.symbolCountOf u.statements :=
  globals_count renamed_unitContext _ _ _

theorem entryPass_end : (entryPass scriptMode file history u next).2.nextId =
    (globalsPass scriptMode file history u next).2.nextId +
      entryCount (unitContext scriptMode file u) (globalsPass scriptMode file history u next).1.2
        (!(globalsPass scriptMode file history u next).1.1.isEmpty) :=
  entryFn?_count renamed_unitContext _ _ _ _

theorem headsPass_own : ∀ p ∈ (headsPass file history u next).1.1, p.1.builtin = none :=
  fun p member => (headsPass_declared.shape p.1 (List.mem_map_of_mem member)).1

theorem bodiesPass_end : (bodiesPass scriptMode file history u next).2.nextId =
    (entryPass scriptMode file history u next).2.nextId +
      ((headsPass file history u next).1.1.map (·.2.bodyCount)).sum :=
  functionBodies_count renamed_unitContext _ headsPass_own _

variable {ρ : Renaming}

theorem unitScope_keeps (builtin : ∀ id, ρ.builtin id = id)
    (kept : ∀ d ∈ history, d.Hold ρ.Keeps) : (unitScope history next).Holds ρ.Keeps := by
  refine (Scope.Holds.history (rootScope_holds next fun f member => ?_) kept).push
  have isBuiltin : f.builtin.isSome = true := by
    rw [builtins_eq] at member
    simp only [List.mem_cons, List.not_mem_nil, or_false] at member
    rcases member with rfl | rfl | rfl <;> rfl
  refine congrArg Symbol.fn ?_
  rw [Fn.rename_plain, if_pos isBuiltin]
  exact Fn.renumber_eq_self builtin f

abbrev StaysBehind (ρ : Renaming) (scope : Scope) {α : Type} (rename : α → α) (r : α × Scope) :
    Prop :=
  Scope.RenamedBehind ρ (fun _ => True) (fun _ => True) scope scope rename r r

theorem headsPass_stays (fixes : ρ.Fixes (headsPass file history u next).2.nextId)
    (kept : ∀ d ∈ history, d.Hold ρ.Keeps) :
    StaysBehind ρ (unitScope history next) (List.map (Prod.map (Fn.rename ρ) id))
      (headsPass file history u next).1 :=
  (declareFns_renames (unitScope_keeps fixes.builtin kept).renamed u.functions (fun _ _ => trivial)
    (fixes.shifts headsPass_end.ge) .empty .empty).2.2.2

theorem globalsPass_stays (fixes : ρ.Fixes (globalsPass scriptMode file history u next).2.nextId)
    (heads : (headsPass file history u next).1.2.Stays ρ) :
    StaysBehind ρ (headsPass file history u next).1.2 (List.map (Stmt.rename ρ))
      (globalsPass scriptMode file history u next).1 :=
  (globals_renames renamed_unitContext heads u.statements (fun _ _ => trivial)
    (fun _ _ _ _ => trivial) (fixes.shifts globalsPass_end.ge) _ _).2.2.2

theorem entryPass_stays (fixes : ρ.Fixes (entryPass scriptMode file history u next).2.nextId)
    (heads : ∀ f ∈ (headsPass file history u next).1.1.map Prod.fst, f.rename ρ = f)
    (statements : (globalsPass scriptMode file history u next).1.2.Stays ρ) :
    (entryPass scriptMode file history u next).1.map (Fn.rename ρ) =
      (entryPass scriptMode file history u next).1 :=
  (entryFn?_renames renamed_unitContext statements trivial
    (fun main isMain => by rw [heads main (globalsPass_among main (mem_fns_of_lookupLocal isMain))])
    False.elim (fixes.shifts entryPass_end.ge) _ _).2.2.2

end Binding

def Bodies.Stay (ρ : Renaming) (bodies : Bodies) : Prop := bodies.rename ρ = bodies

theorem Bodies.stay_iff {ρ : Renaming} {bodies : Bodies} :
    bodies.Stay ρ ↔ ∀ p ∈ bodies, Prod.map (Fn.rename ρ) (Body.rename ρ) p = p := by
  have map := List.map_inj_left (l := bodies) (f := Prod.map (Fn.rename ρ) (Body.rename ρ)) (g := id)
  rwa [List.map_id] at map

section

variable {ρ : Renaming} {scriptMode : Bool} {file : Option String} {history : List Declarations}
  {u : Source.Unit} {next : Nat}

open Binding in
/-- Where the numbers of a unit stay, and so does all that it sees, its symbols and its bodies do. -/
theorem bindUnit_stays (fixes : ρ.Fixes (bindUnit scriptMode file history u next).2)
    (kept : ∀ d ∈ history, d.Hold ρ.Keeps) :
    (bindUnit scriptMode file history u next).1.declarations.Hold ρ.Keeps ∧
      Bodies.Stay ρ (bindUnit scriptMode file history u next).1.bodies := by
  have fixesB : ρ.Fixes (bodiesPass scriptMode file history u next).2.nextId := fixes
  have fixesE := fixesB.le (Nat.le_trans (Nat.le_add_right _ _) bodiesPass_end.ge)
  have fixesG := fixesE.le (Nat.le_trans (Nat.le_add_right _ _) entryPass_end.ge)
  have fixesH := fixesG.le (Nat.le_trans (Nat.le_add_right _ _) globalsPass_end.ge)
  have heads := headsPass_stays fixesH kept
  have statements := globalsPass_stays fixesG heads.scope
  have headsStay : ∀ p ∈ (headsPass file history u next).1.1, Prod.map (Fn.rename ρ) id p = p :=
    List.map_inj_left.1 (heads.item.trans (List.map_id _).symm)
  have fnsStay : ∀ f ∈ (headsPass file history u next).1.1.map Prod.fst, f.rename ρ = f :=
    List.forall_mem_map.2 fun p member => congrArg Prod.fst (headsStay p member)
  have entry := entryPass_stays fixesE fnsStay statements.scope
  have bodies : Bodies.rename ρ (bodiesPass scriptMode file history u next).1 =
      (bodiesPass scriptMode file history u next).1 := by
    have context : (unitContext scriptMode file u).Renamed ρ (unitContext scriptMode file u) :=
      renamed_unitContext
    have renames := functionBodies_renames context statements.scope
      (headsPass file history u next).1.1 headsPass_own (fun _ _ _ _ => trivial)
      (fixesB.shifts bodiesPass_end.ge)
    rw [heads.item] at renames
    exact (renames _ _).2.2.2
  refine ⟨⟨fun v member => ?_, fun f member => congrArg Symbol.fn (fnsStay f (globalsPass_among f member))⟩,
    Bodies.stay_iff.2 fun p member => ?_⟩
  · obtain ⟨new, vars, vars'⟩ := (heads.trans statements (rfl : id () = ())).vars
    have same : new.map (Var.rename ρ) = new.map id := by
      rw [vars] at vars'
      exact (List.append_cancel_left vars').symm.trans (List.map_id _).symm
    have isNew : v ∈ new := by
      have within : v ∈ (unitScope history next).vars ++ new := vars ▸ member
      exact within
    exact congrArg Symbol.var (List.map_inj_left.1 same v isNew)
  · rw [bindUnit_bodies] at member
    rcases mem_addEntry member with own | ⟨e, isEntry, rfl, _⟩
    · exact Bodies.stay_iff.1 bodies p own
    · rw [isEntry] at entry
      exact Prod.ext (Option.some.inj entry) statements.item

/-- The functions that a unit has bodies for are no builtins. -/
theorem bindUnit_own : ∀ p ∈ (bindUnit scriptMode file history u next).1.bodies,
    p.1.builtin = none :=
  fun p member => ((bindUnit_tracked_anyway scriptMode file u).shape p.1
    (List.mem_map_of_mem member)).1

theorem bindUnit_ownEntry : ∀ e, (bindUnit scriptMode file history u next).1.declarations.entry = some e →
    e.builtin = none := by
  intro e isEntry
  have tracked : Binding.UnitTracked (fun _ => True) (bindUnit scriptMode file history u next).1 :=
    bindUnit_tracked_anyway scriptMode file u
  obtain ⟨f, member, same⟩ := tracked.entry e isEntry
  exact bindUnit_entry_unique scriptMode file u isEntry f member same ▸ (tracked.shape f member).1

end

/-- What is there when a unit is compiled: the declarations and the bodies of the units before. -/
structure Renaming.KeepsUnits (ρ : Renaming) (history : List Declarations) (units : List Bodies) :
    Prop where
  symbols : ∀ d ∈ history, d.Hold ρ.Keeps
  bodies : ∀ bs ∈ units, bs.Stay ρ
  own : ∀ bs ∈ units, ∀ p ∈ bs, p.1.builtin = none
  whole : ∀ bs ∈ units, ∀ p ∈ bs, p.2.SelfContained

namespace Compilation

variable {ρ : Renaming} {options : Options} {history : List Declarations} {earlier : List Bodies}
  {u : Source.Unit} {next : Nat}

theorem compileAfter_noErrors_of
    (silent : (bindUnit options.scriptMode options.file history u
      next).1.declarations.diagnostics.hasErrors = false)
    (noReports : (lowerBodies options (options.file <|> u.file) u
      (bindUnit options.scriptMode options.file history u next).1.bodies
      (bindUnit options.scriptMode options.file history u next).2).1.2 = []) :
    (compileAfter options history earlier u next).1.diagnostics.hasErrors = false := by
  rw [compileAfter_eq]
  simp only [diagnostics, Diagnostics.hasErrors_sort, noReports, List.foldl_nil, silent]

theorem compileAfter_end : (compileAfter options history earlier u next).2 =
    (bindUnit options.scriptMode options.file history u next).2 +
      Bodies.lowerCount (bindUnit options.scriptMode options.file history u next).1.bodies := by
  rw [compileAfter_eq]
  exact lowerBodies_count _ _

theorem compileAfter_own :
    ∀ p ∈ (compileAfter options history earlier u next).1.program.bodies, p.1.builtin = none := by
  intro p member
  have keys := @compileAfter_keys options history earlier next u
  have key : p.1 ∈ (bindUnit options.scriptMode options.file history u next).1.bodies.map Prod.fst :=
    keys ▸ List.mem_map_of_mem member
  obtain ⟨q, within, same⟩ := List.mem_map.1 key
  exact same ▸ bindUnit_own q within

theorem compileAfter_keepsUnits (fixes : ρ.Fixes (compileAfter options history earlier u next).2)
    (keeps : ρ.KeepsUnits history earlier) :
    ρ.KeepsUnits ((compileAfter options history earlier u next).1.declarations :: history)
      (compileAfter options history earlier u next).1.program.units := by
  obtain ⟨symbols, bodies⟩ := bindUnit_stays
    (fixes.le (Nat.le_trans (Nat.le_add_right _ _) compileAfter_end.ge)) keeps.symbols
  let bound := bindUnit options.scriptMode options.file history u next
  have lowered : LoweredAlike ρ (lowerBodies options (options.file <|> u.file) u bound.1.bodies bound.2).1
      (lowerBodies options (options.file <|> u.file) u (Bodies.rename ρ bound.1.bodies) bound.2).1 :=
    lowerBodies_rename _ (fixes.shifts compileAfter_end.ge)
  have stays := lowered.bodies
  rw [bodies] at stays
  exact ⟨List.forall_mem_cons.2 ⟨symbols, keeps.symbols⟩,
    List.forall_mem_cons.2 ⟨stays.symm, keeps.bodies⟩,
    List.forall_mem_cons.2 ⟨compileAfter_own, keeps.own⟩,
    List.forall_mem_cons.2 ⟨compileAfter_selfContained, keeps.whole⟩⟩

theorem le_start (us : List Source.Unit) :
    ∀ g ∈ generationsAfter options history earlier us next, next ≤ g.start := by
  refine forall_mem_generationsAfter us (I := fun _ _ n => next ≤ n) (E := fun _ => True)
    (fun u le _ => ⟨le, ?_⟩) (Nat.le_refl next) fun _ _ => trivial
  exact Nat.le_trans le next_le_compileAfter

/-- What a unit of a chain is compiled behind stays if the numbers before the unit do. -/
theorem generationsAfter_keepsUnits (us : List Source.Unit) (keeps : ρ.KeepsUnits history earlier) :
    ∀ g ∈ generationsAfter options history earlier us next, ρ.Fixes g.start →
      ρ.KeepsUnits g.compiled.history g.compiled.program.earlier := by
  induction us generalizing history earlier next with
  | nil => exact List.forall_mem_nil _
  | cons u us ih =>
    refine List.forall_mem_cons.2 ⟨fun _ => keeps, fun g later fixes => ?_⟩
    exact ih (compileAfter_keepsUnits (fixes.le (le_start us g later)) keeps) g later fixes

theorem generations_units (options : Options) (us : List Source.Unit) (next : Nat) :
    (generations options us next).map Generation.unit = us := by
  have after (history : List Declarations) (earlier : List Bodies) :
      (generationsAfter options history earlier us next).map Generation.unit = us := by
    induction us generalizing history earlier next with
    | nil => rfl
    | cons u us ih => exact congrArg (List.cons u) (ih _ _ _)
  exact after [] []

theorem generationsAfter_compiled (us : List Source.Unit) :
    ∀ g ∈ generationsAfter options history earlier us next, g.compiled =
      (compileAfter options g.compiled.history g.compiled.program.earlier g.unit g.start).1 := by
  exact forall_mem_generationsAfter us (I := fun _ _ _ => True) (E := fun _ => True)
    (fun _ _ _ => ⟨rfl, trivial⟩) trivial fun _ _ => trivial

end Compilation

namespace Bodies

variable {κ : Relabelling} {ρ : Renaming}

theorem body?_rename {bodies : Bodies} (own : ∀ p ∈ bodies, p.1.builtin = none) {f : Fn}
    (ownF : f.builtin = none) :
    (bodies.rename κ).body? (f.rename κ) = (bodies.body? f).map (Body.rename κ) := by
  induction bodies with
  | nil => rfl
  | cons p bodies ih =>
    obtain ⟨ownP, own⟩ := List.forall_mem_cons.1 own
    have rest := ih own
    unfold body? rename at rest ⊢
    rw [List.map_cons, List.find?_cons, List.find?_cons]
    have same : ((Prod.map (Fn.rename κ) (Body.rename κ) p).1.id = (f.rename κ).id) = (p.1.id = f.id) := by
      rw [Prod.map_fst, Fn.id_rename ownP, Fn.id_rename ownF, Renaming.own_eq_iff]
    simp only [same]
    cases decide (p.1.id = f.id) with
    | true => rfl
    | false => exact rest

/-- Where numbers differ, it does not matter in which order the bodies stand. -/
theorem body?_perm {bodies bodies' : Bodies} (nodup : (bodies.map (·.1.id)).Nodup)
    (perm : bodies'.Perm bodies) (f : Fn) : bodies'.body? f = bodies.body? f := by
  refine congrArg (Option.map Prod.snd) (List.find?_eq_find?_of_perm perm ?_)
  rintro p ⟨inP, isP⟩ q ⟨inQ, isQ⟩
  refine List.inj_on_of_nodup_map nodup (perm.subset inP) (perm.subset inQ) ?_
  rw [of_decide_eq_true isP, of_decide_eq_true isQ]

theorem body?_stays {bodies : Bodies} (stays : bodies.Stay ρ) (own : ∀ p ∈ bodies, p.1.builtin = none)
    {f : Fn} (ownF : f.builtin = none) :
    bodies.body? (f.rename ρ) = (bodies.body? f).map (Body.rename ρ) := by
  have renamed : (bodies.rename ρ).body? (f.rename ρ) = _ := body?_rename own ownF
  rwa [show bodies.rename ρ = bodies from stays] at renamed

end Bodies

end ScriptLang
