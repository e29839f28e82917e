import ScriptLang.Proofs.BindingPasses
import ScriptLang.Proofs.MisspeltStmts

/-! A unit that binds without errors is bound again with misspelt names in it. Each misspelt name is
reported where it stands, and nothing else is reported. -/

namespace ScriptLang

namespace Binding

open Source (Token Name TypeClause Misspelling)

variable {file : Option String} {a b : Scope} {given : Prop} {unknown : String → Prop}
  {c : BindContext}

theorem length_globalsSites {ds : List Misspelling} {ts ts' : List Source.Stmt}
    (spelt : Source.Stmt.AllMisspelt ds ts ts') (c c' : BindContext) (a b : Scope) (s s' : BindState) :
    (sitesPlainTypes file (globalsSites c' b s' ts')).length =
      (sitesPlainTypes file (globalsSites c a s ts)).length := by
  induction ts generalizing ds ts' a b s s' with
  | nil => cases spelt; rfl
  | cons t ts ih =>
    cases spelt with
    | cons first rest =>
      simp only [globalsSites, sitesPlainTypes_append, List.length_append]
      exact congrArg₂ (· + ·) (length_stmtSites first _ _ _ _ _ _) (ih rest _ _ _ _)

theorem globals_reports {ds : List Misspelling} {ts ts' : List Source.Stmt}
    (spelt : Source.Stmt.AllMisspelt ds ts ts') (areUnknown : ∀ m ∈ ds, unknown m.name.text)
    (declares : ∀ n ∈ Source.Stmt.declaresOf ts, ¬unknown n) (scopes : given → a.Spoilt unknown b)
    (s s' : BindState)
    (types : List.Forall₂ Ty.Spoilt (sitesPlainTypes c.file (globalsSites c a s ts))
      (sitesPlainTypes c.file (globalsSites c b s' ts'))) :
    ReportsAt s s' given (ds.map (·.report c.file)) (globals c a ts) (globals c b ts') fun r r' =>
      r'.1.isEmpty = r.1.isEmpty ∧ r.2.Spoilt unknown r'.2 := by
  induction ts generalizing a b ds ts' given s s' with
  | nil =>
    cases spelt
    exact .pure fun holds => ⟨rfl, scopes holds⟩
  | cons t ts ih =>
    cases spelt with
    | cons first rest =>
      obtain ⟨inFirst, inRest⟩ := List.forall_mem_append.1 areUnknown
      obtain ⟨byFirst, byRest⟩ := List.forall_mem_append.1 declares
      simp only [globalsSites, sitesPlainTypes_append] at types
      obtain ⟨ofFirst, ofRest⟩ := forall₂_of_append types (length_stmtSites first _ _ _ _ _ _)
      unfold globals
      rw [List.map_append]
      refine (stmt_reports true first inFirst byFirst scopes (.refl c.loops.length) s s'
        ofFirst).bind ?_
      refine (ih rest inRest byRest And.right _ _ ofRest).bindQuiet ?_
      exact .pure fun holds => ⟨rfl, holds.2.2⟩

theorem parameters_reports {done : List Var} {ps ps' : List Source.Parameter}
    (same : ps'.map (fun p => (p.name.text, p.type.name.text)) =
      ps.map fun p => (p.name.text, p.type.name.text)) :
    Reports given [] (parameters file done ps) (parameters file done ps') Eq := by
  induction ps generalizing done ps' given with
  | nil =>
    obtain rfl := List.map_eq_nil_iff.1 same
    exact .pure fun _ => rfl
  | cons p ps ih =>
    cases ps' with
    | nil => contradiction
    | cons p' ps' =>
      obtain ⟨here, rest⟩ := List.cons.inj same
      obtain ⟨text, type⟩ := Prod.mk.inj here
      unfold parameters
      rw [text]
      refine ((type?_reports type).mono id fun _ _ _ both => both.1.symm).behindSame fun t? => ?_
      dsimp only
      split
      · refine .of_reported rfl fun _ => ?_
        exact (parameters_sound False.elim ps).mono id fun _ _ _ => trivial
      · exact .freshSame _ fun v => ih rest

theorem returnType_reports {type type' : Option TypeClause} (same : TypeClause.Same type type') :
    Reports given [] (returnType file type) (returnType file type') Eq := by
  cases type with
  | none =>
    cases type' with
    | none => exact .pure fun _ => rfl
    | some clause' => contradiction
  | some clause =>
    cases type' with
    | none => contradiction
    | some clause' =>
      have text : clause'.name.text = clause.name.text := Option.some.inj same
      refine ((type?_reports text).mono id fun _ _ _ both => both.1.symm).behindSame fun t? => ?_
      exact .pure fun _ => rfl

/-- The same functions are declared, and the scopes go on to mean the same. -/
theorem makeFn_reports {f f' : Source.Function} {ps : List Var} {returns : Ty}
    (number : f'.mark.id = f.mark.id) (text : f'.name.text = f.name.text)
    (isKnown : ¬unknown f.name.text) (scopes : given → a.Spoilt unknown b) :
    Reports given [] (makeFn file a f ps returns) (makeFn file b f' ps returns) fun r r' =>
      r'.1 = r.1 ∧ r.2.Spoilt unknown r'.2 := by
  unfold makeFn
  rw [number, text]
  refine .freshSame _ fun fn => .of_given (P := fun _ => True) ?_ fun holds => ?_
  · split
    · exact .pure fun _ => trivial
    · exact .refused rfl
  · rcases (scopes holds).declare isKnown (.fn fn) with ⟨ofA, _⟩ | ⟨a', b', ofA, ofB, scopes'⟩
    · rw [ofA]
      exact .of_refused rfl
    · rw [ofA, ofB]
      exact .pure fun _ => ⟨rfl, scopes'⟩

theorem declareFn_reports {ds : List Misspelling} {f f' : Source.Function}
    (spelt : f.Misspelt ds f') (isKnown : ¬unknown f.name.text)
    (scopes : given → a.Spoilt unknown b) :
    Reports given [] (declareFn file a f) (declareFn file b f') fun r r' =>
      r'.1 = r.1 ∧ r.2.Spoilt unknown r'.2 := by
  rw [declareFn_eq, declareFn_eq]
  refine (parameters_reports spelt.parameters).behindSame fun ps => ?_
  refine (returnType_reports spelt.returns).behindSame fun returns => ?_
  exact makeFn_reports spelt.number spelt.name isKnown scopes

theorem declareFns_reports {ds : List Misspelling} {fs fs' : List Source.Function}
    (spelt : Source.Function.AllMisspelt ds fs fs')
    (declares : ∀ f ∈ fs, ¬unknown f.name.text) (scopes : given → a.Spoilt unknown b) :
    Reports given [] (declareFns file a fs) (declareFns file b fs') fun r r' =>
      r'.1.map Prod.fst = r.1.map Prod.fst ∧ r.2.Spoilt unknown r'.2 := by
  induction fs generalizing a b ds fs' given with
  | nil =>
    cases spelt
    exact .pure fun holds => ⟨rfl, scopes holds⟩
  | cons f fs ih =>
    cases spelt with
    | cons first rest =>
      obtain ⟨byFirst, byRest⟩ := List.forall_mem_cons.1 declares
      unfold declareFns
      refine (declareFn_reports first byFirst scopes).bindQuiet fun r r' => ?_
      refine (ih rest byRest fun holds => holds.2.2).bindQuiet fun t t' => .pure ?_
      rintro ⟨⟨_, same, _⟩, sameRest, scopes'⟩
      exact ⟨by simp [same, sameRest], scopes'⟩

theorem find?_isSome_of_map {β : Type} {as bs : List (Fn × β)} {id : Nat}
    (same : bs.map Prod.fst = as.map Prod.fst) :
    (bs.find? (·.1.id = id)).isSome = (as.find? (·.1.id = id)).isSome := by
  have byFns (cs : List (Fn × β)) :
      (cs.find? (·.1.id = id)).isSome = (cs.map Prod.fst).any (·.id = id) := by
    rw [List.any_map, List.isSome_find?]
    rfl
  rw [byFns, byFns, same]

theorem entryFn?_reports {declared declared' : List (Fn × Source.Function)} {hasGlobals : Bool}
    (same : declared'.map Prod.fst = declared.map Prod.fst) (scopes : a.Spoilt unknown b) :
    Reports given [] (entryFn? c a declared hasGlobals) (entryFn? c b declared' hasGlobals)
      fun _ _ => True := by
  have main : (b.lookupLocal? mainName).bind Symbol.fn? = (a.lookupLocal? mainName).bind Symbol.fn? := by
    have related := scopes.lookupLocal mainName
    generalize a.lookupLocal? mainName = inA at related ⊢
    generalize b.lookupLocal? mainName = inB at related ⊢
    cases related with
    | none => rfl
    | some symbols => cases symbols <;> rfl
  unfold entryFn?
  rw [main]
  split
  · exact .freshSame _ fun e => .pure fun _ => trivial
  · cases (a.lookupLocal? mainName).bind Symbol.fn? with
    | none =>
      dsimp only
      split
      · exact .freshSame _ fun e => .pure fun _ => trivial
      · exact .pure fun _ => trivial
    | some fn =>
      have found : (declared'.find? (·.1.id = fn.id)).isSome = _ := find?_isSome_of_map same
      dsimp only
      generalize declared.find? (·.1.id = fn.id) = inA at found ⊢
      generalize declared'.find? (·.1.id = fn.id) = inB at found ⊢
      cases inA with
      | none =>
        obtain rfl := Option.isNone_iff_eq_none.1 (by simpa using found)
        exact .pure fun _ => trivial
      | some p =>
        obtain ⟨p', rfl⟩ := Option.isSome_iff_exists.1 found
        dsimp only
        split
        · refine .of_reported rfl fun _ => ?_
          split
          · exact .refused rfl
          · exact .pure fun _ => trivial
        · split
          · exact .of_refused rfl
          · exact .pure fun _ => trivial

/-- Parameters are declared in both scopes or in none. -/
theorem bodyScope_spoilt (scopes : a.Spoilt unknown b) {fn : Fn}
    (known : ∀ p ∈ fn.parameters, ¬unknown p.name) :
    (bodyScope a fn).Spoilt unknown (bodyScope b fn) := by
  have pushed := scopes.push
  unfold bodyScope
  generalize fn.parameters = ps at known
  generalize a.push = inA at pushed
  generalize b.push = inB at pushed
  refine Scope.Spoilt.push ?_
  induction ps generalizing inA inB with
  | nil => exact pushed
  | cons p ps ih =>
    obtain ⟨first, rest⟩ := List.forall_mem_cons.1 known
    refine ih rest _ _ ?_
    dsimp only
    rcases pushed.declare first (.var (v := p) rfl (.inl rfl)) with
      ⟨ofA, ofB⟩ | ⟨a', b', ofA, ofB, scopes'⟩
    · rw [ofA, ofB]
      exact pushed
    · rw [ofA, ofB]
      exact scopes'

theorem functionBody_reports {ds : List Misspelling} {fn : Fn} {f f' : Source.Function}
    (spelt : f.Misspelt ds f') (areUnknown : ∀ m ∈ ds, unknown m.name.text)
    (parameters : ∀ p ∈ fn.parameters, ¬unknown p.name)
    (declares : ∀ n ∈ Source.Stmt.declaresOf f.body, ¬unknown n) (scopes : a.Spoilt unknown b)
    (s s' : BindState)
    (types : List.Forall₂ Ty.Spoilt
      (sitesPlainTypes c.file (stmtsSites { c with function := some fn } (bodyScope a fn) s f.body))
      (sitesPlainTypes c.file (stmtsSites { c with function := some fn } (bodyScope b fn) s' f'.body))) :
    ReportsAt s s' given (ds.map (·.report c.file)) (functionBody c a fn f) (functionBody c b fn f')
      fun _ _ => True := by
  have inside := bodyScope_spoilt scopes parameters
  unfold functionBody
  exact (stmts_reports (c := { c with function := some fn }) spelt.body areUnknown declares
    (fun _ => inside) (.refl c.loops.length) s s' types).bindQuiet (.pure fun _ => trivial)

theorem functionBodies_reports {ds : List Misspelling} {fs fs' : List Source.Function}
    (spelt : Source.Function.AllMisspelt ds fs fs') (areUnknown : ∀ m ∈ ds, unknown m.name.text)
    (declares : ∀ f ∈ fs, ∀ n ∈ f.declares, ¬unknown n) {declared declared' : List (Fn × Source.Function)}
    (sources : declared.map Prod.snd = fs) (sources' : declared'.map Prod.snd = fs')
    (same : declared'.map Prod.fst = declared.map Prod.fst) (made : ∀ p ∈ declared, MadeFrom p.2 p.1)
    (scopes : a.Spoilt unknown b) (s s' : BindState)
    (types : List.Forall₂ Ty.Spoilt
      (sitesPlainTypes c.file ((functionsSites c a s declared).flatMap Prod.snd))
      (sitesPlainTypes c.file ((functionsSites c b s' declared').flatMap Prod.snd))) :
    ReportsAt s s' given (ds.map (·.report c.file)) (functionBodies c a declared)
      (functionBodies c b declared') fun _ _ => True := by
  induction declared generalizing ds fs fs' declared' given s s' with
  | nil =>
    obtain rfl := List.map_eq_nil_iff.1 same
    subst sources
    cases spelt
    exact .pure fun _ => trivial
  | cons p declared ih =>
    cases declared' with
    | nil => contradiction
    | cons p' declared' =>
      obtain ⟨sameFn, sameRest⟩ := List.cons.inj same
      obtain ⟨fn, f⟩ := p
      obtain ⟨fn', f'⟩ := p'
      dsimp only at sameFn
      subst sources sources' sameFn
      cases spelt with
      | cons first rest =>
        obtain ⟨inFirst, inRest⟩ := List.forall_mem_append.1 areUnknown
        obtain ⟨byFirst, byRest⟩ := List.forall_mem_cons.1 declares
        obtain ⟨madeFirst, madeRest⟩ := List.forall_mem_cons.1 made
        simp only [functionsSites, List.flatMap_cons, sitesPlainTypes_append] at types
        obtain ⟨ofFirst, ofRest⟩ := forall₂_of_append types (length_stmtsSites first.body _ _ _ _ _ _)
        have parameters : ∀ v ∈ fn'.parameters, ¬unknown v.name := by
          intro v member
          obtain ⟨q, within, isNamed⟩ := madeFirst.parameters v member
          rw [isNamed]
          refine byFirst _ (List.mem_cons_of_mem _ (List.mem_append_left _ ?_))
          exact List.mem_map_of_mem within
        have inBody : ∀ n ∈ Source.Stmt.declaresOf f.body, ¬unknown n := fun n member =>
          byFirst n (List.mem_cons_of_mem _ (List.mem_append_right _ member))
        unfold functionBodies
        rw [List.map_append]
        refine (functionBody_reports first inFirst parameters inBody scopes s s' ofFirst).bind ?_
        refine (ih rest inRest byRest rfl rfl sameRest madeRest _ _ ofRest).bindQuiet ?_
        exact .pure fun _ => trivial

/-- A name that stands for nothing means nothing in the scope of a unit. -/
theorem unitScope_unknown {history : List Declarations} {u : Source.Unit} {next : Nat}
    {name : String} (isUnknown : Unknown history u name) :
    (unitScope history next).lookup? name = none := by
  have builtins : (rootScope next).1.lookup? name = none := by
    have others : ∀ f ∈ (Builtin.all.mapM Builtin.createFn next).1, f.name ≠ name := by
      rw [builtins_eq]
      intro f member
      simp only [List.mem_cons, List.not_mem_nil, or_false] at member
      rcases member with rfl | rfl | rfl
      · exact isUnknown.builtin .print
      · exact isUnknown.builtin .input
      · exact isUnknown.builtin .rnd
    exact lookup?_foldl_replace others
  have earlier (ds : List Declarations) (within : ds ⊆ history) (scope : Scope) :
      (ds.foldl addDeclarations scope).lookup? name = scope.lookup? name := by
    induction ds generalizing scope with
    | nil => rfl
    | cons d ds ih =>
      obtain ⟨first, rest⟩ := List.cons_subset.1 within
      rw [List.foldl_cons, ih rest, lookup?_addDeclarations (isUnknown.history d first)]
  have reversed : history.reverse ⊆ history := fun d member => List.mem_reverse.1 member
  unfold unitScope historyScope
  rw [Scope.lookup?_push, earlier _ reversed, Scope.lookup?_push, builtins]

theorem spoilt_refl (scope : Scope)
    (areUnknown : ∀ name, unknown name → scope.lookup? name = none ∧ Ty.ofName? name = none) :
    scope.Spoilt unknown scope := by
  have same (x : Option Symbol) : Option.Rel Symbol.Spoilt x x := by
    cases x with
    | none => exact .none
    | some symbol =>
      cases symbol with
      | var v => exact .some (.var rfl (.inl rfl))
      | fn f => exact .some (.fn f)
  exact ⟨fun _ => same _, fun _ => same _, areUnknown⟩

/-- States in which both bindings have got equally far. The other one has reported these diagnostics. -/
structure Abreast (ds : List Diagnostic) (s s' : BindState) : Prop where
  ids : s'.nextId = s.nextId
  items : s'.diagnostics.items = ds

theorem Abreast.passAt {α β : Type} {x : Bind α} {y : Bind β} {R : α → β → Prop}
    {ds ds' : List Diagnostic} {s s' : BindState} (abreast : Abreast ds s s')
    (reports : ReportsAt s s' True ds' x y R) (silent : (x s).2.Silent) :
    Abreast (ds ++ ds') (x s).2 (y s').2 ∧ R (x s).1 (y s').1 := by
  obtain ⟨ids, items, related⟩ := (reports silent).2 trivial abreast.ids
  exact ⟨⟨ids, by rw [items, abreast.items]⟩, related⟩

theorem Abreast.pass {α β : Type} {x : Bind α} {y : Bind β} {R : α → β → Prop}
    {ds ds' : List Diagnostic} {s s' : BindState} (abreast : Abreast ds s s')
    (reports : Reports True ds' x y R) (silent : (x s).2.Silent) :
    Abreast (ds ++ ds') (x s).2 (y s').2 ∧ R (x s).1 (y s').1 :=
  abreast.passAt (reports.at s s') silent

section

variable {scriptMode : Bool} {history : List Declarations} {u u' : Source.Unit} {next : Nat}
  {ds : List Misspelling}

theorem unitContext_congr (sameFile : u'.file = u.file) :
    unitContext scriptMode file u' = unitContext scriptMode file u := by
  unfold unitContext
  rw [sameFile]

theorem headsPass_reports (sameFile : u'.file = u.file)
    (spelt : Source.Function.AllMisspelt ds u.functions u'.functions)
    (silent : (headsPass file history u next).2.Silent) :
    Abreast [] (headsPass file history u next).2 (headsPass file history u' next).2 ∧
      (headsPass file history u' next).1.1.map Prod.fst =
        (headsPass file history u next).1.1.map Prod.fst ∧
      (headsPass file history u next).1.2.Spoilt (Unknown history u)
        (headsPass file history u' next).1.2 := by
  have start : (unitScope history next).Spoilt (Unknown history u)
      (unitScope history next) :=
    spoilt_refl _ fun name isUnknown => ⟨unitScope_unknown isUnknown, isUnknown.type⟩
  have declares : ∀ f ∈ u.functions, ¬Unknown history u f.name.text := by
    intro f member isUnknown
    refine isUnknown.unit (List.mem_append_right _ (List.mem_flatMap_of_mem member ?_))
    exact List.mem_append_left _ List.mem_cons_self
  have abreast : Abreast [] ⟨next + 5, .empty⟩ ⟨next + 5, .empty⟩ := ⟨rfl, rfl⟩
  unfold headsPass at silent ⊢
  rw [sameFile]
  exact abreast.pass (declareFns_reports spelt declares fun _ => start) silent

theorem globalsPass_reports {before : List Diagnostic} (sameFile : u'.file = u.file)
    (spelt : Source.Stmt.AllMisspelt ds u.statements u'.statements)
    (areUnknown : ∀ m ∈ ds, Unknown history u m.name.text)
    (abreast : Abreast before (headsPass file history u next).2 (headsPass file history u' next).2)
    (scopes : (headsPass file history u next).1.2.Spoilt (Unknown history u)
      (headsPass file history u' next).1.2)
    (types : List.Forall₂ Ty.Spoilt
      (sitesPlainTypes (file <|> u.file) (entrySites scriptMode file history u next))
      (sitesPlainTypes (file <|> u.file) (entrySites scriptMode file history u' next)))
    (silent : (globalsPass scriptMode file history u next).2.Silent) :
    Abreast (before ++ ds.map (·.report (file <|> u.file)))
        (globalsPass scriptMode file history u next).2
        (globalsPass scriptMode file history u' next).2 ∧
      (globalsPass scriptMode file history u' next).1.1.isEmpty =
        (globalsPass scriptMode file history u next).1.1.isEmpty ∧
      (globalsPass scriptMode file history u next).1.2.Spoilt (Unknown history u)
        (globalsPass scriptMode file history u' next).1.2 := by
  have declares : ∀ n ∈ Source.Stmt.declaresOf u.statements, ¬Unknown history u n :=
    fun n member isUnknown => isUnknown.unit (List.mem_append_left _ member)
  unfold entrySites at types
  unfold globalsPass at silent ⊢
  rw [unitContext_congr sameFile] at types ⊢
  exact abreast.passAt (globals_reports spelt areUnknown declares (fun _ => scopes) _ _ types) silent

theorem entryPass_reports {before : List Diagnostic} (sameFile : u'.file = u.file)
    (abreast : Abreast before (globalsPass scriptMode file history u next).2
      (globalsPass scriptMode file history u' next).2)
    (sameFns : (headsPass file history u' next).1.1.map Prod.fst =
      (headsPass file history u next).1.1.map Prod.fst)
    (sameEmpty : (globalsPass scriptMode file history u' next).1.1.isEmpty =
      (globalsPass scriptMode file history u next).1.1.isEmpty)
    (scopes : (globalsPass scriptMode file history u next).1.2.Spoilt (Unknown history u)
      (globalsPass scriptMode file history u' next).1.2)
    (silent : (entryPass scriptMode file history u next).2.Silent) :
    Abreast before (entryPass scriptMode file history u next).2
      (entryPass scriptMode file history u' next).2 := by
  unfold entryPass at silent ⊢
  dsimp only at silent ⊢
  rw [unitContext_congr sameFile, sameEmpty]
  have pass := abreast.pass (entryFn?_reports sameFns scopes) silent
  rw [List.append_nil] at pass
  exact pass.1

theorem bodiesPass_reports {before : List Diagnostic} (sameFile : u'.file = u.file)
    (spelt : Source.Function.AllMisspelt ds u.functions u'.functions)
    (areUnknown : ∀ m ∈ ds, Unknown history u m.name.text)
    (abreast : Abreast before (entryPass scriptMode file history u next).2
      (entryPass scriptMode file history u' next).2)
    (sameFns : (headsPass file history u' next).1.1.map Prod.fst =
      (headsPass file history u next).1.1.map Prod.fst)
    (scopes : (globalsPass scriptMode file history u next).1.2.Spoilt (Unknown history u)
      (globalsPass scriptMode file history u' next).1.2)
    (types : List.Forall₂ Ty.Spoilt (sitesPlainTypes (file <|> u.file)
        ((declaredSites scriptMode file history u next).flatMap Prod.snd))
      (sitesPlainTypes (file <|> u.file)
        ((declaredSites scriptMode file history u' next).flatMap Prod.snd)))
    (silent : (bodiesPass scriptMode file history u next).2.Silent) :
    Abreast (before ++ ds.map (·.report (file <|> u.file)))
      (bodiesPass scriptMode file history u next).2
      (bodiesPass scriptMode file history u' next).2 := by
  have declares : ∀ f ∈ u.functions, ∀ n ∈ f.declares, ¬Unknown history u n :=
    fun f member n within isUnknown => isUnknown.unit
      (List.mem_append_right _ (List.mem_flatMap_of_mem member within))
  have made : (headsPass file history u next).1.1.map Prod.snd = u.functions ∧ _ :=
    declareFns_make u.functions _
  have made' : (headsPass file history u' next).1.1.map Prod.snd = u'.functions ∧ _ :=
    declareFns_make u'.functions _
  unfold declaredSites at types
  unfold bodiesPass at silent ⊢
  rw [unitContext_congr sameFile] at types ⊢
  exact (abreast.passAt (functionBodies_reports spelt areUnknown declares made.1 made'.1 sameFns made.2
    scopes _ _ types) silent).1

end

end Binding

open Binding

variable {scriptMode : Bool} {file : Option String} {history : List Declarations}
  {u u' : Source.Unit} {next : Nat} {ds : List Source.Misspelling}

/-- In a unit that binds without errors each name that is then misspelt is reported where it stands,
in the order in which binding comes to them, and nothing else is reported. Each plain assignment that
is used as a value has to keep its type, or to lose it. -/
theorem bindUnit_reports_each
    (noErrors :
      (bindUnit scriptMode file history u next).1.declarations.diagnostics.hasErrors = false)
    (spelt : u.Misspelt ds u') (areUnknown : ∀ m ∈ ds, Unknown history u m.name.text)
    (types : List.Forall₂ Ty.Spoilt (unitPlainTypes scriptMode file history u next)
      (unitPlainTypes scriptMode file history u' next)) :
    (bindUnit scriptMode file history u' next).1.declarations.diagnostics.items =
      ds.map (·.report (file <|> u.file)) := by
  obtain ⟨sameFile, rfl, inStatements, inBodies⟩ := spelt
  obtain ⟨unknownInStatements, unknownInBodies⟩ := List.forall_mem_append.1 areUnknown
  obtain ⟨heads, statements, entry⟩ := silent_passes noErrors
  simp only [unitPlainTypes, sitesPlainTypes_append, sameFile] at types
  obtain ⟨ofStatements, ofBodies⟩ :=
    forall₂_of_append types (length_globalsSites inStatements _ _ _ _ _ _)
  obtain ⟨abreast, sameFns, scopes⟩ := headsPass_reports sameFile inBodies heads
  obtain ⟨abreast, sameEmpty, scopes⟩ := globalsPass_reports sameFile inStatements
    unknownInStatements abreast scopes ofStatements statements
  have abreast := entryPass_reports sameFile abreast sameFns sameEmpty scopes entry
  rw [List.map_append]
  exact (bodiesPass_reports sameFile inBodies unknownInBodies abreast sameFns scopes ofBodies
    noErrors).items

/-- One mistake, one diagnostic: if one name is misspelt, just that is reported, where it stands. -/
theorem bindUnit_reports_once {d : Source.Misspelling}
    (noErrors :
      (bindUnit scriptMode file history u next).1.declarations.diagnostics.hasErrors = false)
    (spelt : u.Misspelt [d] u') (isUnknown : Unknown history u d.name.text)
    (types : List.Forall₂ Ty.Spoilt (unitPlainTypes scriptMode file history u next)
      (unitPlainTypes scriptMode file history u' next)) :
    (bindUnit scriptMode file history u' next).1.declarations.diagnostics =
      ⟨[d.report (file <|> u.file)]⟩ := by
  have reported := bindUnit_reports_each noErrors spelt (List.forall_mem_singleton.2 isUnknown) types
  exact congrArg Diagnostics.mk reported

namespace LostType

open Source

def mark : Mark := ⟨⟨0, 0⟩, 0⟩

def name (text : String) : Name := ⟨mark, text⟩

def ref (text : String) : Source.Expr := .name mark (name text)

def literal (v : Value) : Source.Expr := .literal mark v

def assign (target : String) (value : Source.Expr) : Source.Expr :=
  .assign mark (name target) ⟨mark, .equals⟩ value

def add (l r : Source.Expr) : Source.Expr := .binary mark (.paren mark l) ⟨mark, .plus⟩ r

def declare (keyword : Kind) (text : String) (e : Source.Expr) : Source.Stmt :=
  .declare mark ⟨mark, keyword⟩ (name text) none e

def function (text : String) (parameters : List Parameter) (body : List Source.Stmt) : Function :=
  ⟨mark, name text, parameters, some ⟨mark, name "int"⟩, mark, body⟩

def bodyOfF : List Source.Stmt := [.ret mark mark.range (some (ref "n"))]

def bodyOfG : List Source.Stmt := [declare .varKeyword "x" (literal (.int 0)),
  .ret mark mark.range (some (add (assign "x" (literal (.int 1))) (literal (.int 1))))]

/-- `function f(n: int): int { return n }  function g(): int { var x = 0  return (x = 1) + 1 }`
`let z = 1  var x = z  x = 3  let q = x = x  let s = (x = 1) + 1  var y = f(x)  let w = (y = 2) + 1`,
with another name for the second `z`. -/
def kept (text : String) : Source.Unit := ⟨mark, none, [
  .function (function "f" [⟨mark, name "n", ⟨mark, name "int"⟩⟩] bodyOfF),
  .function (function "g" [] bodyOfG),
  .statement mark (declare .letKeyword "z" (literal (.int 1))),
  .statement mark (declare .varKeyword "x" (ref text)),
  .statement mark (.expr mark (assign "x" (literal (.int 3)))),
  .statement mark (declare .letKeyword "q" (assign "x" (ref "x"))),
  .statement mark (declare .letKeyword "s" (add (assign "x" (literal (.int 1))) (literal (.int 1)))),
  .statement mark (declare .varKeyword "y" (.call mark (name "f") [ref "x"])),
  .statement mark (declare .letKeyword "w" (add (assign "y" (literal (.int 2))) (literal (.int 1))))]⟩

/-- `let z = 2.5  var x = z  let w = (x = 1) + 1.5`, with another name for the second `z`. -/
def retyped (text : String) : Source.Unit := ⟨mark, none, [
  .statement mark (declare .letKeyword "z" (literal (.float 2.5))),
  .statement mark (declare .varKeyword "x" (ref text)),
  .statement mark (declare .letKeyword "w"
    (add (assign "x" (literal (.int 1))) (literal (.float 1.5))))]⟩

def mistake : Misspelling := ⟨.var, name "missing"⟩

theorem ref_misspelt (text : String) : (ref text).Misspelt [] (ref text) := .name (.same rfl)

theorem assign_misspelt (target : String) {value : Source.Expr} (same : value.Misspelt [] value) :
    (assign target value).Misspelt [] (assign target value) := .assign rfl same (.same rfl)

theorem add_misspelt {l : Source.Expr} (same : l.Misspelt [] l) (v : Value) :
    (add l (literal v)).Misspelt [] (add l (literal v)) := .binary rfl (.paren same) .literal

theorem declare_misspelt {ds : List Misspelling} (keyword : Kind) (text : String)
    {e e' : Source.Expr} (spelt : e.Misspelt ds e') :
    (declare keyword text e).Misspelt ds (declare keyword text e') := .declare rfl rfl rfl spelt

theorem kept_misspelt : (kept "z").Misspelt [mistake] (kept "missing") := by
  have one (target : String) (v : Value) := assign_misspelt target (.literal (m := mark) (v := v))
  have statements : Stmt.AllMisspelt [mistake] (kept "z").statements (kept "missing").statements :=
    .cons (declare_misspelt _ _ .literal) (.cons (declare_misspelt _ _ (.name .other))
      (.cons (.expr (one "x" _)) (.cons (declare_misspelt _ _ (assign_misspelt "x" (ref_misspelt "x")))
        (.cons (declare_misspelt _ _ (add_misspelt (one "x" _) _))
          (.cons (declare_misspelt _ _ (.call (.cons (ref_misspelt "x") .nil) (.same rfl)))
            (.cons (declare_misspelt _ _ (add_misspelt (one "y" _) _)) .nil))))))
  have inF : Stmt.AllMisspelt [] bodyOfF bodyOfF := .cons (.retValue (ref_misspelt "n")) .nil
  have inG : Stmt.AllMisspelt [] bodyOfG bodyOfG :=
    .cons (declare_misspelt _ _ .literal) (.cons (.retValue (add_misspelt (one "x" _) _)) .nil)
  exact .mk rfl rfl statements (.cons ⟨rfl, rfl, rfl, rfl, inF⟩ (.cons ⟨rfl, rfl, rfl, rfl, inG⟩ .nil))

theorem retyped_misspelt : (retyped "z").Misspelt [mistake] (retyped "missing") := by
  have statements : Stmt.AllMisspelt [mistake] (retyped "z").statements
      (retyped "missing").statements :=
    .cons (declare_misspelt _ _ .literal) (.cons (declare_misspelt _ _ (.name .other))
      (.cons (declare_misspelt _ _ (add_misspelt (assign_misspelt "x" .literal) _)) .nil))
  exact .mk rfl rfl statements .nil

theorem unknown_of_declares {u : Source.Unit} (other : mistake.name.text ∉ u.declares) :
    Unknown [] u mistake.name.text where
  unit := other
  history := List.forall_mem_nil _
  builtin b := by cases b <;> decide
  type := by decide

end LostType

/-- The mistake in the first value of `x` is all that is reported, although `x` is used later: what is
assigned to it has the type that it would have, or none. -/
theorem lostType_reports_once :
    (bindUnit false none [] (LostType.kept "z") 0).1.declarations.diagnostics = .empty ∧
      (bindUnit false none [] (LostType.kept "missing") 0).1.declarations.diagnostics =
        ⟨[LostType.mistake.report none]⟩ := by
  have noErrors : (bindUnit false none [] (LostType.kept "z") 0).1.declarations.diagnostics =
      .empty := by decide +kernel
  exact ⟨noErrors, bindUnit_reports_once (by rw [noErrors]; rfl) LostType.kept_misspelt
    (LostType.unknown_of_declares (by decide +kernel)) (by decide +kernel)⟩

/-- An assignment has the type of its value, but the value is converted to a type that is known
only. Once that of `x` is lost, the assignment has another type, and this is reported as well. -/
theorem lostType_reports_twice :
    (bindUnit false none [] (LostType.retyped "z") 0).1.declarations.diagnostics = .empty ∧
      (LostType.retyped "z").Misspelt [LostType.mistake] (LostType.retyped "missing") ∧
      Unknown [] (LostType.retyped "z") LostType.mistake.name.text ∧
      (bindUnit false none [] (LostType.retyped "missing") 0).1.declarations.diagnostics ≠
        ⟨[LostType.mistake.report none]⟩ := by
  refine ⟨by decide +kernel, LostType.retyped_misspelt,
    LostType.unknown_of_declares (by decide +kernel), by decide +kernel⟩

end ScriptLang
