import Mathlib.Data.List.Perm.Basic
import ScriptLang.Proofs.BindingDeclarations

/-! A variable takes its number from the counter, and a loop those of its two labels. So what is bound
one after another never shares a number. -/

namespace ScriptLang

/-- The numbers are taken from a counter that went from `low` to `high`, each of them once. -/
structure Minted (low high : Nat) (ids : List Nat) : Prop where
  le : low ≤ high
  nodup : ids.Nodup
  within : ∀ id ∈ ids, low ≤ id ∧ id < high

namespace Minted

variable {low mid high : Nat} {ids more : List Nat}

theorem nil (le : low ≤ high) : Minted low high [] := ⟨le, List.nodup_nil, List.forall_mem_nil _⟩

/-- The counter goes on. -/
theorem later (minted : Minted low mid ids) (le : mid ≤ high) : Minted low high ids where
  le := Nat.le_trans minted.le le
  nodup := minted.nodup
  within id member := by
    have := minted.within id member
    omega

theorem append (first : Minted low mid ids) (second : Minted mid high more) :
    Minted low high (ids ++ more) where
  le := Nat.le_trans first.le second.le
  nodup := by
    apply List.nodup_append.2
    refine ⟨first.nodup, second.nodup, fun id member other member' => ?_⟩
    have := first.within id member
    have := second.within other member'
    omega
  within id member := by
    have := first.le
    have := second.le
    rcases List.mem_append.1 member with old | new
    · have := first.within id old
      omega
    · have := second.within id new
      omega

theorem sublist (minted : Minted low high ids) (part : more.Sublist ids) : Minted low high more :=
  ⟨minted.le, minted.nodup.sublist part, fun id member => minted.within id (part.subset member)⟩

theorem perm (minted : Minted low high ids) (same : more.Perm ids) : Minted low high more :=
  ⟨minted.le, same.nodup_iff.2 minted.nodup, fun id member => minted.within id (same.mem_iff.1 member)⟩

end Minted

namespace Binding

open Source (Token Name TypeClause)

/-- The labels of what `x` gives are told apart if the labels in `old` are: they are some of
these, and others that `x` takes from the counter. -/
def Mints {α : Type} (old : List Nat) (x : Bind α) (labels : α → List Nat) : Prop :=
  ∀ s low, Minted low s.nextId old → Minted low (x s).2.nextId (labels (x s).1)

namespace Mints

variable {α β : Type} {old : List Nat} {x : Bind α} {f : α → Bind β} {labels : α → List Nat}
  {labels' : β → List Nat}

theorem pure {a : α} (same : labels a = old) : Mints old (Pure.pure a) labels :=
  fun _ _ minted => same ▸ minted

/-- The numbers may be named in another order. -/
theorem give {a : α} (same : (labels a).Perm old) : Mints old (Pure.pure a) labels :=
  fun _ _ minted => minted.perm same

/-- A symbol that takes the next number. -/
theorem one {make : Fresh α} {id : α → Nat} (takes : ∀ n, id (make n).1 = n)
    (goesOn : ∀ n, (make n).2 = n + 1) : Mints [] (Bind.fresh make) fun a => [id a] := by
  intro s low minted
  show Minted low (make s.nextId).2 [id (make s.nextId).1]
  rw [takes, goesOn]
  have le := minted.le
  exact ⟨by omega, by simp, List.forall_mem_singleton.2 ⟨le, by omega⟩⟩

theorem bind (first : Mints old x labels) (second : ∀ a, Mints (labels a) (f a) labels') :
    Mints old (x >>= f) labels' :=
  fun s low minted => second (x s).1 (x s).2 low (first s low minted)

/-- Labels that are there before stay apart from those that `x` takes. -/
theorem frame (own : Mints [] x labels) (old : List Nat) :
    Mints old x fun a => old ++ labels a :=
  fun s _ minted => minted.append (own s s.nextId (.nil (Nat.le_refl _)))

/-- What is bound first and what is bound after it have labels of their own. -/
theorem andThen (first : Mints [] x labels) (second : ∀ a, Mints (old ++ labels a) (f a) labels') :
    Mints old (x >>= f) labels' := (first.frame old).bind second

/-- A computation that gives no labels may come first. -/
theorem tracked {ι : Type} {id : ι → Nat} {S : ι → Prop} {P : α → Prop} {T : α → ι → Prop}
    (first : Tracks id S x P T) (second : ∀ a, P a → Mints old (f a) labels') :
    Mints old (x >>= f) labels' :=
  fun s low minted => second (x s).1 (first.holds s) (x s).2 low (minted.later (first.le s))

theorem given {P : α → Prop} (first : Gives x P) (second : ∀ a, P a → Mints old (f a) labels') :
    Mints old (x >>= f) labels' := .tracked (first fun _ => True) second

theorem reported {f : PUnit → Bind β} {file : Option String} {range : TextRange} {m : Message}
    {args : List String} (second : ∀ a, Mints old (f a) labels') :
    Mints old (Bind.report file range m args >>= f) labels' :=
  fun _ low minted => second ⟨⟩ _ low minted

end Mints

/-- What comes next may rely on what is known of the value. -/
theorem Mints.bindKnown {α β : Type} {old : List Nat} {x : Bind α} {f : α → Bind β}
    {labels : α → List Nat} {labels' : β → List Nat} {P : α → Prop} (first : Mints old x labels)
    (known : Yields x P) (second : ∀ a, P a → Mints (labels a) (f a) labels') :
    Mints old (x >>= f) labels' :=
  fun s low minted => second (x s).1 (known s) (x s).2 low (first s low minted)

theorem newLoop_mints : Mints [] (Bind.fresh newLoop) fun l => [l.onBreak.id, l.onContinue.id] := by
  intro s low minted
  show Minted low (s.nextId + 2) [s.nextId, s.nextId + 1]
  have le := minted.le
  constructor
  · omega
  · simp
  · simp only [List.forall_mem_cons, List.not_mem_nil, false_implies, implies_true, and_true]
    omega

def ids (vs : List Var) : List Nat := vs.map Var.id

def numbers (vs : List Var) (labels : List Nat) : List Nat := ids vs ++ labels

theorem numbers_append (vs ws : List Var) (ls ks : List Nat) :
    (numbers (vs ++ ws) (ls ++ ks)).Perm (numbers vs ls ++ numbers ws ks) := by
  simp only [numbers, ids, List.map_append, List.append_assoc]
  refine List.Perm.append_left _ ?_
  rw [← List.append_assoc, ← List.append_assoc]
  exact List.perm_append_comm.append_right ks

variable {c : BindContext} {scope : Scope}

theorem declareVar_mints {name : Name} {readOnly : Bool} {ty : Ty} {constant : Option Value} :
    Mints [] (declareVar c scope name readOnly ty constant) fun declared => [declared.1.id] := by
  unfold declareVar
  have made (kind : VarKind) : Mints [] (Bind.fresh (Var.create name.text readOnly ty kind constant))
      fun v => [v.id] := .one (fun _ => rfl) fun _ => rfl
  refine (made _).bind fun v => ?_
  cases scope.declare? name.text (.var v) with
  | none => exact .reported fun _ => .pure rfl
  | some scope' => exact .pure rfl

theorem declaration_mints {keyword : Token} {name : Name} {type : Option TypeClause}
    {source : Source.Expr} :
    Mints [] (declaration c scope keyword name type source) fun b =>
      numbers b.1.introduced b.1.ownLabels := by
  unfold declaration
  extract_lets rest
  have restMints (declared : Option Ty) :
      Mints [] (rest declared) fun b => numbers b.1.introduced b.1.ownLabels := by
    refine .given (value_gives scope.holds_anything source) fun bound within => ?_
    refine .given (convert_gives within) fun converted _ => ?_
    exact declareVar_mints.bind fun declared => .pure rfl
  cases type with
  | none => exact .given (P := fun _ => True) (.pure trivial) fun declared _ => restMints declared
  | some clause => exact .given (type?_gives clause) fun declared _ => restMints declared

theorem jump_mints {keyword : Token} :
    Mints [] (jump c keyword) fun b => numbers b.introduced b.ownLabels := by
  unfold jump
  cases c.loops with
  | nil => exact .reported fun _ => .pure rfl
  | cons labels loops => exact .pure rfl

theorem returnStmt_mints {keyword : TextRange} {bound : Option (TextRange × Expr)} :
    Mints [] (do return (← returnStmt c keyword bound, scope)) fun b =>
      numbers b.1.introduced b.1.ownLabels := by
  refine .given returnStmt_isRet fun s given => ?_
  obtain ⟨value, rfl⟩ := given
  exact .pure rfl

mutual

theorem stmt_mints {c : BindContext} {scope : Scope} (isGlobal : Bool) (s : Source.Stmt) :
    Mints [] (stmt c isGlobal scope s) fun b => numbers b.1.introduced b.1.ownLabels := by
  cases s with
  | block m body => exact .bind (stmts_mints body) fun bound => .pure rfl
  | declare m keyword name type source => exact declaration_mints
  | ifThen m condition thenBody =>
    apply Mints.given (valueOf_gives scope.holds_anything .bool condition)
    intro condition _
    exact .bind (stmt_mints false thenBody) fun bound => .pure rfl
  | ifElse m condition thenBody elseBody =>
    apply Mints.given (valueOf_gives scope.holds_anything .bool condition)
    intro condition _
    refine .bind (stmt_mints false thenBody) fun bound => ?_
    exact .andThen (stmt_mints false elseBody) fun bound' => .give (numbers_append ..)
  | whileDo m condition body =>
    apply Mints.given (valueOf_gives scope.holds_anything .bool condition)
    intro condition _
    refine .bind newLoop_mints fun labels => ?_
    exact .andThen (stmt_mints false body) fun bound => .give (numbers_append [] _ [_, _] _)
  | doWhile m body condition =>
    refine .bind newLoop_mints fun labels => ?_
    refine .andThen (stmt_mints false body) fun bound => ?_
    apply Mints.given (valueOf_gives bound.2.holds_anything .bool condition)
    exact fun condition _ => .give (numbers_append [] _ [_, _] _)
  | forIn m name range body =>
    apply Mints.given (loopRange_gives scope.holds_anything range)
    intro range _
    refine .bind declareVar_mints fun declared => ?_
    refine .andThen newLoop_mints fun labels => ?_
    exact .andThen (stmt_mints false body) fun bound => .give (numbers_append [_] _ [_, _] _)
  | jump keyword => exact .bind jump_mints fun bound => .pure rfl
  | ret m keyword value =>
    cases value with
    | none => exact returnStmt_mints
    | some e =>
      apply Mints.given (value_gives scope.holds_anything e)
      exact fun bound _ => returnStmt_mints
  | expr m e =>
    apply Mints.given (expr_gives scope.holds_anything e)
    intro bound _
    dsimp only
    split
    · exact .reported fun _ => .pure rfl
    · exact .pure rfl

theorem stmts_mints {c : BindContext} {scope : Scope} (ss : List Source.Stmt) :
    Mints [] (stmts c scope ss) fun b => numbers (Stmt.introducedOf b.1) (Stmt.ownLabelsOf b.1) := by
  cases ss with
  | nil => exact .pure rfl
  | cons s ss =>
    refine .bind (stmt_mints false s) fun bound => ?_
    exact .andThen (stmts_mints ss) fun rest => .give (numbers_append ..)

end

theorem globals_mints (ss : List Source.Stmt) :
    Mints [] (globals c scope ss) fun b =>
      numbers (Stmt.introducedOf b.1) (Stmt.ownLabelsOf b.1) := by
  induction ss generalizing scope with
  | nil => exact .pure rfl
  | cons s ss ih =>
    refine .bind (stmt_mints true s) fun bound => ?_
    exact .andThen ih fun rest => .give (numbers_append ..)

def ownLabels (bodies : List (Fn × Body)) : List Nat := bodies.flatMap fun p => Stmt.ownLabelsOf p.2

theorem functionBodies_mints (declared : List (Fn × Source.Function)) :
    Mints [] (functionBodies c scope declared) fun bodies =>
      numbers (bodies.flatMap fun p => Stmt.introducedOf p.2) (ownLabels bodies) := by
  induction declared with
  | nil => exact .pure rfl
  | cons p declared ih =>
    have body : Mints [] (functionBody c scope p.1 p.2) fun body =>
        numbers (Stmt.introducedOf body) (Stmt.ownLabelsOf body) :=
      .bind (stmts_mints p.2.body) fun bound => .pure rfl
    refine .bind body fun body => ?_
    exact .andThen ih fun bodies => .give (numbers_append ..)

theorem parameters_mintsVars {file : Option String} (done : List Var) (ps : List Source.Parameter) :
    Mints (ids done) (parameters file done ps) ids := by
  induction ps generalizing done with
  | nil => exact .pure rfl
  | cons p ps ih =>
    unfold parameters
    refine .given (type?_gives p.type) fun t? _ => ?_
    dsimp only
    split
    · exact .reported fun _ => ih done
    · have made : Mints [] (Bind.fresh (Var.createParameter p.name.text (t?.getD .error) done.length))
          fun v => [v.id] := .one (fun _ => rfl) fun _ => rfl
      refine .andThen made fun v => ?_
      have next := ih (done ++ [v])
      rw [ids, List.map_append] at next
      exact next

theorem makeFn_mintsVars {file : Option String} {f : Source.Function} {ps : List Var} (returns : Ty) :
    Mints (ids ps) (do
        let fn ← Bind.fresh (Fn.create f.name.text ps returns (some f.mark.id))
        match scope.declare? f.name.text (.fn fn) with
        | some scope => return (fn, scope)
        | none =>
          Bind.report file f.name.mark.range .symbolAlreadyDeclared [f.name.text]
          return (fn, scope)) fun r => ids r.1.parameters := by
  have made : Mints (ids ps) (Bind.fresh (Fn.create f.name.text ps returns (some f.mark.id)))
      fun fn => ids fn.parameters := fun s low minted => minted.later (Nat.le_succ _)
  refine made.bind fun fn => ?_
  cases scope.declare? f.name.text (.fn fn) with
  | none => exact .reported fun _ => .pure rfl
  | some scope' => exact .pure rfl

theorem declareFn_mintsVars {file : Option String} (f : Source.Function) :
    Mints [] (declareFn file scope f) fun r => ids r.1.parameters := by
  unfold declareFn
  refine (parameters_mintsVars [] f.parameters).bind fun ps => ?_
  cases f.returns with
  | none => exact .given (P := fun _ => True) (.pure trivial) fun returns _ => makeFn_mintsVars returns
  | some clause =>
    refine .given (type?_gives clause) fun t? _ => ?_
    exact .given (P := fun _ => True) (.pure trivial) fun returns _ => makeFn_mintsVars returns

theorem declareFns_mintsVars {file : Option String} (fs : List Source.Function) :
    Mints [] (declareFns file scope fs) fun r =>
      ids ((r.1.map Prod.fst).flatMap Fn.parameters) := by
  induction fs generalizing scope with
  | nil => exact .pure rfl
  | cons f fs ih =>
    refine (declareFn_mintsVars f).bind fun r => ?_
    exact .andThen ih fun rest => .pure (List.map_append ..)

/-- The parameters of functions and the variables that their bodies bring along. -/
def ownVars (bodies : List (Fn × Body)) : List Var :=
  bodies.flatMap fun p => p.1.parameters ++ Stmt.introducedOf p.2

theorem ownVars_perm (bodies : List (Fn × Body)) :
    (ownVars bodies).Perm ((bodies.map Prod.fst).flatMap Fn.parameters ++
      bodies.flatMap fun p => Stmt.introducedOf p.2) := by
  rw [List.flatMap_map]
  exact (List.flatMap_append_perm bodies _ _).symm

theorem numbers_ownVars (bodies : List (Fn × Body)) (labels : List Nat) :
    (numbers (ownVars bodies) labels).Perm (ids ((bodies.map Prod.fst).flatMap Fn.parameters) ++
      numbers (bodies.flatMap fun p => Stmt.introducedOf p.2) labels) := by
  have apart := (ownVars_perm bodies).map Var.id
  rw [List.map_append] at apart
  rw [numbers, numbers, ← List.append_assoc]
  exact apart.append_right labels

/-- The entry function brings what the global statements do, if it is not declared. -/
theorem minted_addEntry {low high : Nat} {bodies : List (Fn × Body)} {entry : Option Fn}
    {statements : Body}
    (minted : Minted low high (ids ((bodies.map Prod.fst).flatMap Fn.parameters) ++
      numbers (Stmt.introducedOf statements) (Stmt.ownLabelsOf statements) ++
      numbers (bodies.flatMap fun p => Stmt.introducedOf p.2) (ownLabels bodies)))
    (made : ∀ e, entry = some e → bodies.any (·.1.id = e.id) = false → MadeForGlobals e) :
    Minted low high (numbers (ownVars (addEntry bodies entry statements))
      (ownLabels (addEntry bodies entry statements))) := by
  have declaredOnly : Minted low high (numbers (ownVars bodies) (ownLabels bodies)) := by
    refine Minted.perm ?_ (numbers_ownVars bodies _)
    exact minted.sublist (List.Sublist.append_right (List.sublist_append_left _ _) _)
  unfold Binding.addEntry
  cases entry with
  | none => exact declaredOnly
  | some e =>
    dsimp only
    split
    next => exact declaredOnly
    next new =>
      have vars : ownVars (bodies ++ [(e, statements)]) =
          ownVars bodies ++ Stmt.introducedOf statements := by
        simp [ownVars, (made e rfl (Bool.eq_false_iff.2 new)).parameters]
      have labels : ownLabels (bodies ++ [(e, statements)]) =
          ownLabels bodies ++ Stmt.ownLabelsOf statements := by
        simp [ownLabels]
      rw [vars, labels]
      apply minted.perm
      refine (numbers_append ..).trans (((numbers_ownVars bodies _).append_right _).trans ?_)
      rw [List.append_assoc, List.append_assoc]
      exact List.perm_append_comm.append_left _

theorem unit_mints {scriptMode : Bool} {file : Option String} {history : List Declarations}
    {u : Source.Unit} :
    Mints [] (unit scriptMode file history u) fun bound =>
      numbers (ownVars bound.bodies) (ownLabels bound.bodies) := by
  unfold unit
  apply Mints.tracked (rootScope_tracks (S := fun _ => True) (F := fun _ => True) fun _ _ => trivial)
  intro root _
  refine (declareFns_mintsVars u.functions).bindKnown
    (Tracks.yields (declareFns_tracks (S := fun _ => True) u.functions)) fun r declared => ?_
  obtain ⟨declaredFns, scope⟩ := r
  have noFns : ∀ f ∈ scope.fns, f ∈ declaredFns.map Prod.fst := fun f member =>
    (declared.among f member).resolve_left List.not_mem_nil
  dsimp only
  refine ((globals_mints u.statements).frame _).bindKnown
    (Tracks.yields (globals_tracks scope.holds_anything u.statements)) fun bound tracked => ?_
  obtain ⟨statements, scope'⟩ := bound
  have scopeFns {f : Fn} (member : f ∈ scope'.fns) : f ∈ declaredFns.map Prod.fst := by
    have sameFns : scope'.fns = scope.fns := tracked.scope.same
    exact noFns f (sameFns ▸ member)
  dsimp only
  refine .given entryFn?_gives fun entry isEntry => ?_
  refine ((functionBodies_mints declaredFns).frame _).bindKnown
    (Tracks.yields (functionBodies_tracks (S := fun _ => True) scope'.holds_anything declaredFns
      fun _ _ _ _ => trivial)) fun bodies known => ?_
  obtain ⟨sameKeys, _⟩ := known
  intro s low minted
  rw [← sameKeys] at minted
  exact minted_addEntry minted fun e given new =>
    (isEntry e given).resolve_right (not_declared sameKeys scopeFns new)

end Binding

section

variable {low next : Nat} {old : List Nat} (minted : Minted low next old) (scriptMode : Bool)
  (file : Option String) (history : List Declarations) (u : Source.Unit)

include minted

/-- The numbers of a bound unit are new, and they are told apart. -/
theorem bindUnit_numbers :
    let bound := bindUnit scriptMode file history u next
    Minted low bound.2 (old ++
      Binding.numbers (Binding.ownVars bound.1.bodies) (Binding.ownLabels bound.1.bodies)) :=
  Binding.unit_mints.frame old ⟨next, .empty⟩ low minted

theorem bindUnit_minted :
    Minted low (bindUnit scriptMode file history u next).2
      (old ++ Binding.ownLabels (bindUnit scriptMode file history u next).1.bodies) :=
  (bindUnit_numbers minted scriptMode file history u).sublist
    (List.Sublist.append_left (List.sublist_append_right _ _) old)

theorem bindUnit_mintsVars :
    Minted low (bindUnit scriptMode file history u next).2
      (old ++ Binding.ids (Binding.ownVars (bindUnit scriptMode file history u next).1.bodies)) :=
  (bindUnit_numbers minted scriptMode file history u).sublist
    (List.Sublist.append_left (List.sublist_append_left _ _) old)

end

end ScriptLang
