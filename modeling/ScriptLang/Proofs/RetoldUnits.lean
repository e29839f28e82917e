import ScriptLang.Proofs.RetoldStmts
import ScriptLang.Proofs.ShiftedUnits

/-! A unit in which local variables have other names is bound to the same code retold, if it is bound
without a mistake. What it declares for the units behind it is the same. -/

namespace ScriptLang

open Source (LocalRename)

namespace Source.LocalRename

variable {r : LocalRename} {isLocal : Bool}

/-- Different names stay different. -/
theorem text_declared_ne {n m : Name} (notNew : n.text ≠ r.new) (notNew' : m.text ≠ r.new)
    (differ : n.text ≠ m.text) : (r.declared isLocal n).text ≠ (r.declared isLocal m).text := by
  unfold declared name text
  dsimp only
  split <;> split
  next isOld isOld' => exact absurd (isOld.2.trans isOld'.2.symm) differ
  next => exact notNew'.symm
  next => exact notNew
  next => exact differ

end Source.LocalRename

def Bodies.Retold (bodies bodies' : Bodies) : Prop :=
  bodies.rename .nameless = bodies'.rename .nameless

theorem Body.Retold.isEmpty {body body' : Body} (retold : body.Retold body') :
    body'.isEmpty = body.isEmpty := by
  have length := congrArg List.length retold
  rw [Body.rename, Body.rename, List.length_map, List.length_map] at length
  rw [Bool.eq_iff_iff, List.isEmpty_iff_length_eq_zero, List.isEmpty_iff_length_eq_zero, length]

namespace Scope.Retold

variable {r : LocalRename} {a b : Scope}

/-- The scope of a unit means the same to itself. -/
theorem refl {scope : Scope} (isNew : scope.inner.contains r.new = false) :
    scope.Retold r false false scope := by
  have same (symbol? : Option Symbol) : Option.Rel Symbol.Retold symbol? symbol? := by
    cases symbol? with
    | none => exact .none
    | some symbol =>
      cases symbol with
      | var v => exact .some (.var rfl)
      | fn f => exact .some (.fn rfl)
  refine ⟨fun name _ => ?_, fun impossible => by contradiction, fun _ _ _ => id,
    fun isFree => ⟨isFree, isNew⟩, fun _ => ⟨rfl, rfl, fun _ => same _⟩⟩
  rw [LocalRename.text_false]
  exact same _

/-- A function is declared in the scope of a unit. -/
theorem replace_fn (retold : a.Retold r false false b) {name : String} {f f' : Fn}
    (same : f.Retold f') (notNew : name ≠ r.new) (isNew : a.inner.contains name = false) :
    (a.replace name (.fn f)).Retold r false false (b.replace name (.fn f')) where
  lookup asked other := by
    have before := retold.lookup asked other
    rw [LocalRename.text_false] at before ⊢
    rw [lookup?_replace, lookup?_replace]
    split
    · exact .some (.fn same)
    · exact before
  isVar impossible := by contradiction
  new asked askedOld askedNew free := by
    obtain ⟨differs, before⟩ := new_replace_iff.1 free
    exact new_replace_iff.2 ⟨differs, retold.new asked askedOld askedNew before⟩
  free isFree := by
    obtain ⟨differs, before⟩ := new_replace_iff.1 isFree
    obtain ⟨freeOld, freeNew⟩ := retold.free before
    exact ⟨new_replace_iff.2 ⟨differs, freeOld⟩, new_replace_iff.2 ⟨notNew.symm, freeNew⟩⟩
  inUnit _ := by
    obtain ⟨_, vars, symbols⟩ := retold.inUnit rfl
    refine ⟨rfl, ?_, fun asked => ?_⟩
    · rw [vars_replace_fn f isNew, vars_replace_fn f' (retold.free_of_free notNew isNew), vars]
    · rw [lookupLocal?_replace, lookupLocal?_replace]
      split
      · exact .some (.fn same)
      · exact symbols asked

end Scope.Retold

namespace Binding

open Source (Token Name TypeClause)

variable {given : Prop} {r : LocalRename} {isLocal active : Bool} {a b : Scope}
  {file : Option String} {c c' : BindContext}

def NamedAfter (vs : List Var) (ps : List Source.Parameter) : Prop :=
  vs.map Var.name = ps.map fun p => p.name.text

structure ParametersRetold (r : LocalRename) (ps : List Source.Parameter) (vs vs' : List Var) :
    Prop where
  same : List.Forall₂ Var.Retold vs vs'
  named : NamedAfter vs ps
  named' : NamedAfter vs' (ps.map r.parameter)
  nodup : (ps.map fun p => p.name.text).Nodup

theorem any_named {vs : List Var} {ps : List Source.Parameter} (named : NamedAfter vs ps)
    (name : String) : vs.any (·.name = name) = true ↔ ∃ p ∈ ps, p.name.text = name := by
  have member : (∃ v ∈ vs, v.name = name) ↔ name ∈ vs.map Var.name := by simp
  rw [List.any_eq_true]
  simp only [decide_eq_true_eq]
  rw [member, named]
  simp

theorem ParametersRetold.snoc {done : List Source.Parameter} {vs vs' : List Var} {v v' : Var}
    {p : Source.Parameter} (retold : ParametersRetold r done vs vs') (same : v.Retold v')
    (named : v.name = p.name.text) (named' : v'.name = (r.parameter p).name.text)
    (isNew : ∀ q ∈ done, q.name.text ≠ p.name.text) :
    ParametersRetold r (done ++ [p]) (vs ++ [v]) (vs' ++ [v']) where
  same := List.rel_append retold.same (.cons same .nil)
  named := by
    have before := retold.named
    unfold NamedAfter at before ⊢
    rw [List.map_append, List.map_append, before, List.map_singleton, List.map_singleton, named]
  named' := by
    have before := retold.named'
    unfold NamedAfter at before ⊢
    rw [List.map_append, List.map_append, before, List.map_append, List.map_singleton, List.map_singleton,
      List.map_singleton, named']
  nodup := by
    rw [List.map_append, List.nodup_append]
    refine ⟨retold.nodup, List.nodup_singleton _, ?_⟩
    rintro _ before _ last rfl
    obtain ⟨q, member, same⟩ := List.mem_map.1 before
    rw [List.map_singleton, List.mem_singleton] at last
    exact isNew q member (same.trans last)

theorem parameters_retold (ps done : List Source.Parameter) {vs vs' : List Var}
    (others : ∀ p ∈ done ++ ps, p.name.text ≠ r.new)
    (retold : given → ParametersRetold r done vs vs') :
    Reports given [] (parameters file vs ps) (parameters file vs' (ps.map r.parameter))
      (ParametersRetold r (done ++ ps)) := by
  induction ps generalizing done vs vs' given with
  | nil =>
    rw [List.append_nil]
    exact .pure retold
  | cons p ps ih =>
    rw [List.map_cons]
    unfold parameters
    have type : (r.parameter p).type.name.text = p.type.name.text :=
      LocalRename.text_name_false p.type.name
    refine ((type?_reports type).mono id fun _ _ _ both => both.1.symm).behindSame fun t? => ?_
    dsimp only
    have rest (v : Var) : Sound False (parameters file (vs ++ [v]) ps) fun _ => True :=
      (parameters_sound False.elim ps).mono id fun _ _ _ => trivial
    split
    · refine .of_reported rfl fun _ => ?_
      exact (parameters_sound False.elim ps).mono id fun _ _ _ => trivial
    next isNew =>
      refine .of_given (Sound.bind (P := fun _ => True) (.fresh fun _ _ => trivial)
        fun v => (rest v).mono And.left fun _ _ => id) fun holds => ?_
      have before := retold holds
      have differ : ∀ q ∈ done, q.name.text ≠ p.name.text := fun q member same =>
        isNew ((any_named before.named _).2 ⟨q, member, same⟩)
      have isNew' : ¬vs'.any (·.name = (r.parameter p).name.text) = true := by
        rw [any_named before.named']
        rintro ⟨_, member, same⟩
        obtain ⟨q, within, rfl⟩ := List.mem_map.1 member
        refine LocalRename.text_declared_ne (others q (List.mem_append_left _ within))
          (others p (List.mem_append_right _ List.mem_cons_self)) (differ q within) same
      rw [if_neg isNew']
      have made : Reports True []
          (Bind.fresh (Var.createParameter p.name.text (t?.getD .error) vs.length))
          (Bind.fresh (Var.createParameter (r.parameter p).name.text (t?.getD .error) vs'.length))
          fun v v' => v.Retold v' ∧ v.name = p.name.text ∧ v'.name = (r.parameter p).name.text := by
        rw [before.same.length_eq]
        exact .fresh fun _ _ => ⟨rfl, rfl, rfl, rfl⟩
      refine made.bindQuiet fun v v' => ?_
      have split : done ++ p :: ps = done ++ [p] ++ ps := List.append_cons done p ps
      rw [split] at others ⊢
      exact ih (done ++ [p]) others fun holds =>
        before.snoc holds.2.1 holds.2.2.1 holds.2.2.2 differ

structure HeadRetold (r : LocalRename) (f : Source.Function) (fn fn' : Fn) : Prop where
  same : fn.Retold fn'
  parameters : ParametersRetold r f.parameters fn.parameters fn'.parameters

theorem returnType_retold (type : Option TypeClause) :
    Reports given [] (returnType file type) (returnType file (type.map r.clause)) Eq :=
  returnType_reports (clause_same type)

/-- Functions with the same parameters retold are the same retold. -/
theorem createFn_retold {ps ps' : List Var} (same : List.Forall₂ Var.Retold ps ps') (name : String)
    (returns : Ty) (declaration : Option Nat) (next : Nat) :
    (Fn.create name ps returns declaration next).1.Retold
      (Fn.create name ps' returns declaration next).1 := by
  have parameters : ps.map (Var.rename .nameless) = ps'.map (Var.rename .nameless) := by
    induction same with
    | nil => rfl
    | cons first _ ih => exact congrArg₂ List.cons first ih
  have renamed (ps : List Var) : (Fn.create name ps returns declaration next).1.rename .nameless =
      { id := next, name, parameters := ps.map (Var.rename .nameless), returns, declaration,
        builtin := none } :=
    Fn.rename_of_own rfl
  unfold Fn.Retold
  rw [renamed, renamed, parameters]

theorem declareFn_retold {f : Source.Function} (others : ∀ p ∈ f.parameters, p.name.text ≠ r.new)
    (notNew : f.name.text ≠ r.new) (scopes : given → a.Retold r false false b) :
    Reports given [] (declareFn file a f) (declareFn file b (r.function f))
      fun p p' => HeadRetold r f p.1 p'.1 ∧ p.2.Retold r false false p'.2 := by
  rw [declareFn_eq, declareFn_eq]
  have start : given → ParametersRetold r [] [] [] := fun _ => ⟨.nil, rfl, rfl, List.nodup_nil⟩
  refine (parameters_retold f.parameters [] others start).bindQuiet fun ps ps' => ?_
  refine (returnType_retold f.returns).behindSame fun returns => ?_
  unfold makeFn
  have made : Reports (given ∧ ParametersRetold r ([] ++ f.parameters) ps ps') []
      (Bind.fresh (Fn.create f.name.text ps returns (some f.mark.id)))
      (Bind.fresh (Fn.create f.name.text ps' returns (some f.mark.id)))
      (HeadRetold r f) :=
    .fresh fun next holds => ⟨rfl, createFn_retold holds.2.same _ _ _ next, holds.2⟩
  have text : (r.function f).name.text = f.name.text := LocalRename.text_name_false f.name
  rw [text]
  refine made.bindQuiet fun fn fn' => .of_given (P := fun _ => True) ?_ fun holds => ?_
  · split
    · exact .pure fun _ => trivial
    · exact .refused rfl
  · have scopes := scopes holds.1.1
    unfold Scope.declare?
    cases taken : a.inner.contains f.name.text with
    | true => exact .of_refused rfl
    | false =>
      rw [scopes.free_of_free notNew taken]
      exact .pure fun _ => ⟨holds.2, scopes.replace_fn holds.2.same notNew taken⟩

structure DeclaredRetold (r : LocalRename) (p p' : Fn × Source.Function) : Prop where
  head : HeadRetold r p.2 p.1 p'.1
  source : p'.2 = r.function p.2

theorem declareFns_retold {fs : List Source.Function}
    (others : ∀ f ∈ fs, ∀ p ∈ f.parameters, p.name.text ≠ r.new)
    (notNew : ∀ f ∈ fs, f.name.text ≠ r.new) (scopes : given → a.Retold r false false b) :
    Reports given [] (declareFns file a fs) (declareFns file b (fs.map r.function))
      (RetoldBehind r false false (List.Forall₂ (DeclaredRetold r))) := by
  induction fs generalizing a b given with
  | nil => exact .pure fun holds => ⟨.nil, scopes holds⟩
  | cons f fs ih =>
    obtain ⟨othersF, others⟩ := List.forall_mem_cons.1 others
    obtain ⟨notNewF, notNew⟩ := List.forall_mem_cons.1 notNew
    refine (declareFn_retold othersF notNewF scopes).bindQuiet fun p p' => ?_
    refine (ih others notNew fun holds => holds.2.2).bindQuiet fun q q' => ?_
    exact .pure fun holds => ⟨.cons ⟨holds.1.2.1, rfl⟩ holds.2.1, holds.2.2⟩

theorem globals_retold (context : c.Retold c') (ss : List Source.Stmt)
    (others : ∀ name ∈ Source.Stmt.namesOf ss, name ≠ r.new)
    (declares : ∀ name ∈ Source.Stmt.declaresOf ss, name ≠ r.new)
    (scopes : given → a.Retold r false false b) :
    Reports given [] (globals c a ss) (globals c' b (ss.map (r.stmt false false)))
      (RetoldBehind r false false Body.Retold) := by
  induction ss generalizing a b given with
  | nil => exact .pure fun holds => ⟨rfl, scopes holds⟩
  | cons s ss ih =>
    obtain ⟨inFirst, inRest⟩ := List.forall_mem_append.1 others
    obtain ⟨byFirst, byRest⟩ := List.forall_mem_append.1 declares
    have first := stmt_retold context true s inFirst byFirst scopes
    rw [LocalRename.active_false] at first
    refine first.bindQuiet fun p p' => ?_
    refine (ih inRest byRest fun holds => holds.2.2).bindQuiet fun q q' => ?_
    exact .pure fun holds => ⟨holds.1.2.1.cons holds.2.1, holds.2.2⟩

theorem fn?_retold {symbol? symbol?' : Option Symbol}
    (related : Option.Rel Symbol.Retold symbol? symbol?') :
    Option.Rel Fn.Retold (symbol?.bind Symbol.fn?) (symbol?'.bind Symbol.fn?) := by
  cases related with
  | none => exact .none
  | some symbols =>
    cases symbols with
    | var _ => exact .none
    | fn same => exact .some same

theorem find?_retold {declared declared' : List (Fn × Source.Function)}
    (retold : List.Forall₂ (DeclaredRetold r) declared declared') (id : Nat) :
    (declared'.find? (·.1.id = id)).isSome = (declared.find? (·.1.id = id)).isSome := by
  induction retold with
  | nil => rfl
  | @cons p p' _ _ first _ ih =>
    rw [List.find?_cons, List.find?_cons, first.head.same.id]
    cases decide (p.1.id = id) with
    | true => rfl
    | false => exact ih

/-- The entry is the same function, or the same retold. -/
theorem entryFn?_retold (context : c.Retold c') {declared declared' : List (Fn × Source.Function)}
    {hasGlobals : Bool} (retold : List.Forall₂ (DeclaredRetold r) declared declared')
    (scopes : a.Retold r false false b) :
    Reports given [] (entryFn? c a declared hasGlobals) (entryFn? c' b declared' hasGlobals)
      (Option.Rel Fn.Retold) := by
  have main := fn?_retold ((scopes.inUnit rfl).2.2 mainName)
  unfold entryFn?
  rw [context.scriptMode]
  split
  · exact .freshSame _ fun e => .pure fun _ => .some rfl
  · generalize (a.lookupLocal? mainName).bind Symbol.fn? = inA at main ⊢
    generalize (b.lookupLocal? mainName).bind Symbol.fn? = inB at main ⊢
    cases main with
    | none =>
      dsimp only
      split
      · exact .freshSame _ fun e => .pure fun _ => .some rfl
      · exact .pure fun _ => .none
    | @some fn fn' same =>
      have found := find?_retold retold fn.id
      dsimp only
      rw [same.id]
      generalize declared.find? (·.1.id = fn.id) = inA at found ⊢
      generalize declared'.find? (·.1.id = fn.id) = inB at found ⊢
      cases inA with
      | none =>
        obtain rfl := Option.isNone_iff_eq_none.1 (by simpa using found)
        exact .pure fun _ => .some same
      | some p =>
        obtain ⟨p', rfl⟩ := Option.isSome_iff_exists.1 found
        have empty : fn'.parameters.isEmpty = fn.parameters.isEmpty := by
          rw [Bool.eq_iff_iff, List.isEmpty_iff_length_eq_zero, List.isEmpty_iff_length_eq_zero,
            same.count]
        dsimp only
        rw [empty, same.returns]
        split
        · refine .of_reported rfl fun _ => ?_
          split
          · exact .refused rfl
          · exact .pure fun _ => trivial
        · split
          · exact .of_refused rfl
          · exact .pure fun _ => .some same

/-- Behind the parameters of a function the names mean the same. -/
theorem declareParameters_retold {ps : List Source.Parameter} {vs vs' : List Var}
    (retold : a.Retold r true active b) (parameters : ParametersRetold r ps vs vs')
    (others : ∀ p ∈ ps, p.name.text ≠ r.new)
    (free : ∀ p ∈ ps, a.inner.contains p.name.text = false) :
    (vs.foldl (fun s p => (s.declare? p.name (.var p)).getD s) a).Retold r true
      (ps.foldl (fun before p => r.activeBehind true before p.name) active)
      (vs'.foldl (fun s p => (s.declare? p.name (.var p)).getD s) b) := by
  obtain ⟨same, named, named', nodup⟩ := parameters
  induction ps generalizing a b active vs vs' with
  | nil =>
    obtain rfl := List.map_eq_nil_iff.1 named
    obtain rfl := List.forall₂_nil_left_iff.1 same
    exact retold
  | cons p ps ih =>
    obtain ⟨v, vs, rfl, name, named⟩ := List.map_eq_cons_iff.1 named
    obtain ⟨v', vs', rfl, name', named'⟩ := List.map_eq_cons_iff.1 named'
    obtain ⟨sameV, sameVs⟩ := List.forall₂_cons.1 same
    obtain ⟨notAmong, nodup⟩ := List.nodup_cons.1 nodup
    obtain ⟨other, others⟩ := List.forall_mem_cons.1 others
    obtain ⟨freeP, free⟩ := List.forall_mem_cons.1 free
    obtain ⟨freeP', behind⟩ := retold.declare other freeP sameV fun impossible => by contradiction
    have free' : b.inner.contains v'.name = false := name' ▸ freeP'
    have declared : a.declare? v.name (.var v) = some (a.replace p.name.text (.var v)) := by
      rw [name, Scope.declare?, freeP]
      rfl
    have declared' : b.declare? v'.name (.var v') =
        some (b.replace (r.declared true p.name).text (.var v')) := by
      rw [Scope.declare?, free', name']
      rfl
    rw [List.foldl_cons, List.foldl_cons, List.foldl_cons, declared, declared']
    refine ih behind others (fun q member => ?_) sameVs named named' nodup
    refine Scope.new_replace_iff.2 ⟨fun sameName => notAmong ?_, free q member⟩
    exact List.mem_map.2 ⟨q, member, sameName⟩

theorem functionBody_retold (context : c.Retold c') {f : Source.Function} {fn fn' : Fn}
    (head : HeadRetold r f fn fn') (parameters : ∀ p ∈ f.parameters, p.name.text ≠ r.new)
    (others : ∀ name ∈ Source.Stmt.namesOf f.body, name ≠ r.new)
    (declares : ∀ name ∈ Source.Stmt.declaresOf f.body, name ≠ r.new)
    (scopes : a.Retold r false false b) :
    Reports given [] (functionBody c a fn f) (functionBody c' b fn' (r.function f))
      Body.Retold := by
  have inner := declareParameters_retold scopes.push head.parameters parameters fun _ _ => rfl
  have context' : BindContext.Retold { c with function := some fn }
      { c' with function := some fn' } := { context with function := .some head.same }
  unfold functionBody
  refine (stmts_retold context' f.body others declares fun _ => inner.push).bindQuiet fun p p' => ?_
  exact .pure And.right

theorem functionBodies_retold (context : c.Retold c')
    {declared declared' : List (Fn × Source.Function)}
    (retold : List.Forall₂ (DeclaredRetold r) declared declared')
    (declares : ∀ p ∈ declared, ∀ name ∈ p.2.declares, name ≠ r.new)
    (others : ∀ p ∈ declared, ∀ name ∈ Source.Stmt.namesOf p.2.body, name ≠ r.new)
    (scopes : a.Retold r false false b) :
    Reports given [] (functionBodies c a declared) (functionBodies c' b declared')
      Bodies.Retold := by
  induction retold generalizing given with
  | nil => exact .pure fun _ => rfl
  | @cons p p' _ _ first _ ih =>
    obtain ⟨fn, f⟩ := p
    obtain ⟨fn', f'⟩ := p'
    obtain ⟨head, source⟩ := first
    obtain rfl : f' = r.function f := source
    obtain ⟨declaresF, declares⟩ := List.forall_mem_cons.1 declares
    obtain ⟨othersF, others⟩ := List.forall_mem_cons.1 others
    obtain ⟨byHead, byBody⟩ := List.forall_mem_append.1 (List.forall_mem_cons.1 declaresF).2
    have parameters : ∀ p ∈ f.parameters, p.name.text ≠ r.new :=
      fun p member => byHead _ (List.mem_map_of_mem member)
    refine (functionBody_retold context head parameters othersF byBody scopes).bindQuiet
      fun body body' => ?_
    refine (ih declares others).bindQuiet fun bodies bodies' => ?_
    refine .pure fun holds => congrArg₂ List.cons ?_ holds.2
    exact Prod.ext head.same holds.1.2

end Binding

structure Source.LocalRename.IsNew (r : LocalRename) (u : Source.Unit) : Prop where
  names : r.new ∉ u.names
  declares : r.new ∉ u.declares

structure UnitRetold (bound bound' : BoundUnit × Nat) : Prop where
  next : bound'.2 = bound.2
  noErrors : bound'.1.declarations.diagnostics.hasErrors = false
  vars : bound'.1.declarations.vars = bound.1.declarations.vars
  entry : Option.Rel Fn.Retold bound.1.declarations.entry bound'.1.declarations.entry
  bodies : Bodies.Retold bound.1.bodies bound'.1.bodies

section

variable {scriptMode : Bool} {file : Option String} {history : List Declarations}
  {u : Source.Unit} {next : Nat} {r : LocalRename}

namespace Binding

theorem unitContext_retold :
    (unitContext scriptMode file u).Retold (unitContext scriptMode file (r.unit u)) :=
  ⟨rfl, rfl, .none, rfl⟩

theorem headsPass_retold (isNew : r.IsNew u) (silent : (headsPass file history u next).2.Silent) :
    Abreast [] (headsPass file history u next).2 (headsPass file history (r.unit u) next).2 ∧
      RetoldBehind r false false (List.Forall₂ (DeclaredRetold r))
        (headsPass file history u next).1 (headsPass file history (r.unit u) next).1 := by
  have declares : ∀ f ∈ u.functions, ∀ name ∈ f.declares, name ≠ r.new := fun f member name within =>
    ne_of_mem_of_not_mem (List.mem_append_right _ (List.mem_flatMap_of_mem member within))
      isNew.declares
  have start : (unitScope history next).Retold r false false (unitScope history next) := .refl rfl
  have abreast : Abreast [] ⟨next + 5, .empty⟩ ⟨next + 5, .empty⟩ := ⟨rfl, rfl⟩
  unfold headsPass at silent ⊢
  rw [LocalRename.functions_unit]
  refine abreast.pass (declareFns_retold (fun f member p within => ?_) (fun f member => ?_)
    fun _ => start) silent
  · refine declares f member _ (List.mem_append_left _ (List.mem_cons_of_mem _ ?_))
    exact List.mem_map_of_mem within
  · exact declares f member _ (List.mem_append_left _ List.mem_cons_self)

theorem globalsPass_retold (isNew : r.IsNew u)
    (abreast : Abreast [] (headsPass file history u next).2
      (headsPass file history (r.unit u) next).2)
    (scopes : (headsPass file history u next).1.2.Retold r false false
      (headsPass file history (r.unit u) next).1.2)
    (silent : (globalsPass scriptMode file history u next).2.Silent) :
    Abreast [] (globalsPass scriptMode file history u next).2
        (globalsPass scriptMode file history (r.unit u) next).2 ∧
      RetoldBehind r false false Body.Retold (globalsPass scriptMode file history u next).1
        (globalsPass scriptMode file history (r.unit u) next).1 := by
  unfold globalsPass at silent ⊢
  rw [LocalRename.statements_unit]
  refine abreast.pass (globals_retold unitContext_retold u.statements (fun name within => ?_)
    (fun name within => ?_) fun _ => scopes) silent
  · exact ne_of_mem_of_not_mem (List.mem_append_left _ within) isNew.names
  · exact ne_of_mem_of_not_mem (List.mem_append_left _ within) isNew.declares

theorem entryPass_retold
    (abreast : Abreast [] (globalsPass scriptMode file history u next).2
      (globalsPass scriptMode file history (r.unit u) next).2)
    (declared : List.Forall₂ (DeclaredRetold r) (headsPass file history u next).1.1
      (headsPass file history (r.unit u) next).1.1)
    (statements : RetoldBehind r false false Body.Retold
      (globalsPass scriptMode file history u next).1
      (globalsPass scriptMode file history (r.unit u) next).1)
    (silent : (entryPass scriptMode file history u next).2.Silent) :
    Abreast [] (entryPass scriptMode file history u next).2
        (entryPass scriptMode file history (r.unit u) next).2 ∧
      Option.Rel Fn.Retold (entryPass scriptMode file history u next).1
        (entryPass scriptMode file history (r.unit u) next).1 := by
  unfold entryPass at silent ⊢
  dsimp only at silent ⊢
  rw [statements.1.isEmpty]
  exact abreast.pass (entryFn?_retold unitContext_retold declared statements.2) silent

theorem bodiesPass_retold (isNew : r.IsNew u)
    (abreast : Abreast [] (entryPass scriptMode file history u next).2
      (entryPass scriptMode file history (r.unit u) next).2)
    (declared : List.Forall₂ (DeclaredRetold r) (headsPass file history u next).1.1
      (headsPass file history (r.unit u) next).1.1)
    (scopes : (globalsPass scriptMode file history u next).1.2.Retold r false false
      (globalsPass scriptMode file history (r.unit u) next).1.2)
    (silent : (bodiesPass scriptMode file history u next).2.Silent) :
    Abreast [] (bodiesPass scriptMode file history u next).2
        (bodiesPass scriptMode file history (r.unit u) next).2 ∧
      Bodies.Retold (bodiesPass scriptMode file history u next).1
        (bodiesPass scriptMode file history (r.unit u) next).1 := by
  have made : (headsPass file history u next).1.1.map Prod.snd = u.functions ∧ _ :=
    declareFns_make u.functions _
  have source : ∀ p ∈ (headsPass file history u next).1.1, p.2 ∈ u.functions :=
    fun p member => made.1 ▸ List.mem_map_of_mem member
  refine abreast.pass (functionBodies_retold unitContext_retold declared
    (fun p member name within => ?_) (fun p member name within => ?_) scopes) silent
  · exact ne_of_mem_of_not_mem
      (List.mem_append_right _ (List.mem_flatMap_of_mem (source p member) within)) isNew.declares
  · exact ne_of_mem_of_not_mem
      (List.mem_append_right _ (List.mem_flatMap_of_mem (source p member) within)) isNew.names

theorem addEntry_retold {bodies bodies' : List (Fn × Body)} {entry entry' : Option Fn}
    {statements statements' : Body} (own : ∀ p ∈ bodies, p.1.builtin = none)
    (own' : ∀ p ∈ bodies', p.1.builtin = none) (ownEntry : ∀ e, entry = some e → e.builtin = none)
    (ownEntry' : ∀ e, entry' = some e → e.builtin = none)
    (same : Bodies.Retold bodies bodies') (sameEntry : Option.Rel Fn.Retold entry entry')
    (sameStatements : statements.Retold statements') :
    Bodies.Retold (addEntry bodies entry statements) (addEntry bodies' entry' statements') := by
  have entries : entry.map (Fn.rename .nameless) = entry'.map (Fn.rename .nameless) := by
    cases sameEntry with
    | none => rfl
    | some same => exact congrArg some same
  unfold Bodies.Retold
  rw [← addEntry_rename own ownEntry, ← addEntry_rename own' ownEntry', same, entries,
    sameStatements]

end Binding

open Binding in
/-- A unit with other names for local variables is bound to the same code retold. -/
theorem bindUnit_retold (isNew : r.IsNew u)
    (noErrors :
      (bindUnit scriptMode file history u next).1.declarations.diagnostics.hasErrors = false) :
    UnitRetold (bindUnit scriptMode file history u next)
      (bindUnit scriptMode file history (r.unit u) next) := by
  obtain ⟨silentH, silentG, silentE⟩ := silent_passes noErrors
  obtain ⟨abreastH, declared, scopes⟩ := headsPass_retold isNew silentH
  obtain ⟨abreastG, statements⟩ := globalsPass_retold isNew abreastH scopes silentG
  obtain ⟨abreastE, entry⟩ := entryPass_retold abreastG declared statements silentE
  obtain ⟨abreast, bodies⟩ := bodiesPass_retold isNew abreastE declared statements.2 noErrors
  have own (u : Source.Unit) : ∀ p ∈ (bodiesPass scriptMode file history u next).1,
      p.1.builtin = none := fun p member => bindUnit_own p (addEntry_keeps _ _ member)
  refine ⟨abreast.ids, ?_, (statements.2.inUnit rfl).2.1, entry, ?_⟩
  · show (bodiesPass scriptMode file history (r.unit u) next).2.diagnostics.items.any _ = false
    rw [abreast.items]
    rfl
  · rw [bindUnit_bodies, bindUnit_bodies]
    exact addEntry_retold (own u) (own (r.unit u)) bindUnit_ownEntry bindUnit_ownEntry bodies entry
      statements.1

end

end ScriptLang
