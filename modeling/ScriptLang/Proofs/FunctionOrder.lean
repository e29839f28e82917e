import ScriptLang.Proofs.ExchangedFunctions
import ScriptLang.Proofs.RenamedRuns

/-! Any order of the functions of a unit comes from another one by exchanges of neighbours. With each of
them, rows of numbers change places, and the unit is compiled to the same under these. -/

namespace ScriptLang

namespace Move

/-- From `n` on, for each triple a row of numbers that stays and two rows that change places. -/
def exchanging : Nat → List (Nat × Nat × Nat) → List Move
  | _, [] => []
  | n, (i, j, k) :: rows =>
    ⟨n, n, i⟩ :: ⟨n + i, n + i + k, j⟩ :: ⟨n + i + j, n + i, k⟩ :: exchanging (n + i + (j + k)) rows

theorem le_exchanging {rows : List (Nat × Nat × Nat)} {n : Nat} :
    ∀ m ∈ exchanging n rows, n ≤ m.source ∧ n ≤ m.target := by
  induction rows generalizing n with
  | nil => exact List.forall_mem_nil _
  | cons row rows ih =>
    obtain ⟨i, j, k⟩ := row
    simp only [exchanging, List.forall_mem_cons]
    refine ⟨by omega, by omega, by omega, fun m member => ?_⟩
    have later := ih m member
    omega

/-- The rows are apart, before and behind. -/
theorem exchanging_apart (rows : List (Nat × Nat × Nat)) (n : Nat) :
    (exchanging n rows).Pairwise (fun a b => Apart a.source a.length b.source b.length) ∧
      (exchanging n rows).Pairwise fun a b => Apart a.target a.length b.target b.length := by
  induction rows generalizing n with
  | nil => exact ⟨.nil, .nil⟩
  | cons row rows ih =>
    obtain ⟨i, j, k⟩ := row
    obtain ⟨sources, targets⟩ := ih (n + i + (j + k))
    have later := @le_exchanging rows (n + i + (j + k))
    simp only [exchanging, List.pairwise_cons, List.forall_mem_cons, Apart]
    refine ⟨⟨⟨by omega, by omega, fun m member => ?_⟩, ⟨by omega, fun m member => ?_⟩,
        fun m member => ?_, sources⟩,
      ⟨by omega, by omega, fun m member => ?_⟩, ⟨by omega, fun m member => ?_⟩,
        fun m member => ?_, targets⟩ <;>
    · have := later m member
      omega

end Move

namespace Renaming

def Follows (ρ : Renaming) : Nat → List (Nat × Nat × Nat) → Prop
  | _, [] => True
  | n, (i, j, k) :: rows => ρ.Shifts n n i ∧ ρ.Shifts (n + i) (n + i + k) j ∧
    ρ.Shifts (n + i + j) (n + i) k ∧ ρ.Follows (n + i + (j + k)) rows

theorem exists_follows (rows : List (Nat × Nat × Nat)) :
    ∃ ρ : Renaming, (∀ id, ρ.builtin id = id) ∧ ρ.Follows 0 rows := by
  obtain ⟨sources, targets⟩ := Move.exchanging_apart rows 0
  obtain ⟨ρ, builtin, shifts⟩ := Move.exists_renaming id sources targets
  refine ⟨ρ, fun id => by rw [builtin]; rfl, ?_⟩
  generalize 0 = n at shifts
  clear sources targets
  induction rows generalizing n with
  | nil => trivial
  | cons row rows ih =>
    obtain ⟨i, j, k⟩ := row
    simp only [Move.exchanging, List.forall_mem_cons] at shifts
    exact ⟨shifts.1, shifts.2.1, shifts.2.2.1, ih _ shifts.2.2.2⟩

/-- Three times two rows of numbers change places, with other rows around them that stay. -/
theorem exists_exchanges (n i j k l m i' j' k' l' i'' j'' k'' l'' : Nat) :
    ∃ ρ : Renaming, ρ.Fixes n ∧ ρ.Exchanges n i j k l ∧
      ρ.Shifts (n + (i + (j + k + l))) (n + (i + (j + k + l))) m ∧
      ρ.Exchanges (n + (i + (j + k + l)) + m) i' j' k' l' ∧
      ρ.Exchanges (n + (i + (j + k + l)) + m + (i' + (j' + k' + l'))) i'' j'' k'' l'' := by
  obtain ⟨ρ, builtin, follows⟩ := exists_follows
    [(n + i, j, k), (l + m + i', j', k'), (l' + i'', j'', k''), (l'', 0, 0)]
  obtain ⟨front, first, second, between, first', second', between', first'', second'', rest, _⟩ :=
    follows
  refine ⟨ρ, ⟨fun id bound => ?_, builtin⟩,
    ⟨front.part ?_ ?_, first.part ?_ ?_, second.part ?_ ?_, between.part ?_ ?_⟩, between.part ?_ ?_,
    ⟨between.part ?_ ?_, first'.part ?_ ?_, second'.part ?_ ?_, between'.part ?_ ?_⟩,
    ⟨between'.part ?_ ?_, first''.part ?_ ?_, second''.part ?_ ?_, rest.part ?_ ?_⟩⟩
  · simpa using front id (Nat.lt_of_lt_of_le bound (Nat.le_add_right n i))
  all_goals omega

end Renaming

theorem Program.Renames.of_exchange {ρ : Renaming} {p p' : Program} {i : Nat}
    {history : List Declarations} (keeps : ρ.KeepsUnits history p.earlier)
    (own : ∀ q ∈ p.bodies, q.1.builtin = none) (whole : ∀ q ∈ p.bodies, q.2.SelfContained)
    (nodup : (p.bodies.map (·.1.id)).Nodup) (bodies : p'.bodies = swapAt i (p.bodies.rename ρ))
    (earlier : p'.earlier = p.earlier) : p.Renames ρ (fun _ => True) p' where
  body? f _ ownF := by
    have numbers : (p.bodies.rename ρ).map (·.1.id) = (p.bodies.map (·.1.id)).map ρ.own := by
      rw [Bodies.rename, List.map_map, List.map_map]
      exact List.map_congr_left fun q member => Fn.id_rename (own q member)
    have nodup' : ((p.bodies.rename ρ).map (·.1.id)).Nodup :=
      numbers ▸ List.Nodup.map ρ.injective nodup
    have first : p'.bodies.body? (f.rename ρ) = (p.bodies.body? f).map (Body.rename ρ) := by
      rw [bodies, Bodies.body?_perm nodup' (swapAt_perm i _), Bodies.body?_rename own ownF]
    have rest (units : List Bodies) (stays : ∀ bs ∈ units, bs.Stay ρ)
        (own : ∀ bs ∈ units, ∀ q ∈ bs, q.1.builtin = none) :
        units.findSome? (Bodies.body? · (f.rename ρ)) =
          (units.findSome? (Bodies.body? · f)).map (Body.rename ρ) := by
      induction units with
      | nil => rfl
      | cons bs units ih =>
        obtain ⟨stays, staysRest⟩ := List.forall_mem_cons.1 stays
        obtain ⟨own, ownRest⟩ := List.forall_mem_cons.1 own
        rw [List.findSome?_cons, List.findSome?_cons, Bodies.body?_stays stays own ownF,
          ih staysRest ownRest]
        cases bs.body? f <;> rfl
    rw [Program.body?, Program.body?, List.findSome?_cons, List.findSome?_cons, first, earlier,
      rest p.earlier keeps.bodies keeps.own]
    cases p.bodies.body? f <;> rfl
  whole f body _ found := by
    obtain ⟨g, member, _⟩ := Program.mem_of_body? found
    obtain ⟨bs, unit, within⟩ := List.mem_flatten.1 member
    rcases List.mem_cons.1 unit with rfl | old
    · exact whole _ within
    · exact keeps.whole bs old _ within
  calls _ _ _ _ _ _ _ _ := trivial

/-- The second compilation does what the first one does, under other numbers from `start` on. -/
structure Compilation.Renumbers (start : Nat) (number : Nat → Nat) (c c' : Compilation) : Prop where
  injective : Function.Injective number
  fixes : ∀ id < start, number id = id
  vars : c'.declarations.vars = c.declarations.vars.map (Var.renumber number)
  outcomes : ∀ fuel globals host, (∀ id ∈ globals.keys, id < start) →
    (c.evaluate fuel globals host).Renumbered number (c'.evaluate fuel globals host)

namespace Binding

/-- Two lists of the same length have the same middle parts in them. -/
theorem exists_declared {declared : List (Fn × Source.Function)}
    {before behind : List Source.Function} {x y : Source.Function}
    (sources : declared.map Prod.snd = before ++ x :: y :: behind) :
    ∃ l p q t, declared = l ++ p :: q :: t ∧ l.map Prod.snd = before ∧ p.2 = x ∧ q.2 = y ∧
      t.map Prod.snd = behind := by
  obtain ⟨l, rest, rfl, first, later⟩ := List.map_eq_append_iff.1 sources
  obtain ⟨p, rest, rfl, isX, later⟩ := List.map_eq_cons_iff.1 later
  obtain ⟨q, t, rfl, isY, last⟩ := List.map_eq_cons_iff.1 later
  exact ⟨l, p, q, t, rfl, first, isX, isY, last⟩

end Binding

theorem Binding.length_le_addEntry (bodies : Bodies) (entry : Option Fn) (statements : Body) :
    bodies.length ≤ (addEntry bodies entry statements).length := by
  unfold addEntry
  cases entry with
  | none => exact Nat.le_refl _
  | some e =>
    dsimp only
    split
    · exact Nat.le_refl _
    · simp

structure UnitExchanged (ρ : Renaming) (i : Nat) (r r' : BoundUnit × Nat) : Prop where
  next : r'.2 = r.2
  noErrors : r'.1.declarations.diagnostics.hasErrors = false
  entry : r'.1.declarations.entry = r.1.declarations.entry.map (Fn.rename ρ)
  vars : r'.1.declarations.vars = r.1.declarations.vars.map (Var.rename ρ)
  bodies : r'.1.bodies = swapAt i (Bodies.rename ρ r.1.bodies)

section

variable {scriptMode : Bool} {file : Option String} {history : List Declarations}
  {u u' : Source.Unit} {next : Nat} {before behind : List Source.Function} {x y : Source.Function}

open Binding in
theorem bindUnit_exchange {ρ : Renaming} (exchange : Exchange before x y behind u u')
    (builtin : ∀ id, ρ.builtin id = id) (kept : ∀ d ∈ history, d.Hold ρ.Keeps)
    {l t : List (Fn × Source.Function)} {p q : Fn × Source.Function}
    (declared : (headsPass file history u next).1.1 = l ++ p :: q :: t)
    (length : l.length = before.length)
    (heads : ρ.Exchanges (next + 5) (headCounts before) x.headCount y.headCount (headCounts behind))
    (between : ρ.Shifts (headsPass file history u next).2.nextId
      (headsPass file history u next).2.nextId (Source.Stmt.symbolCountOf u.statements +
        entryCount (unitContext scriptMode file u) (globalsPass scriptMode file history u next).1.2
          (!(globalsPass scriptMode file history u next).1.1.isEmpty)))
    (bodies : ρ.Exchanges (entryPass scriptMode file history u next).2.nextId (bodyCounts l)
      p.2.bodyCount q.2.bodyCount (bodyCounts t))
    (silent : (bindUnit scriptMode file history u next).1.declarations.diagnostics.hasErrors = false) :
    UnitExchanged ρ before.length (bindUnit scriptMode file history u next)
      (bindUnit scriptMode file history u' next) := by
  obtain ⟨silentH, silentG, silentE⟩ := silent_passes silent
  have headsAlike := headsPass_exchange exchange (unitScope_keeps builtin kept) heads silentH
  have statementsAlike := globalsPass_exchange exchange headsAlike between.front silentG
  have entryFixes := between.back
  rw [← globalsPass_end] at entryFixes
  rw [← length] at headsAlike
  have entryAlike := entryPass_exchange headsAlike statementsAlike entryFixes silentE
  have bodiesAlike := bodiesPass_exchange declared headsAlike statementsAlike entryAlike bodies silent
  obtain ⟨new, vars, vars'⟩ :=
    (headsAlike.related.trans statementsAlike.related (rfl : id () = ())).vars
  refine ⟨bodiesAlike.next, bodiesAlike.silent, entryAlike.related.symm, ?_, ?_⟩
  · show (globalsPass scriptMode file history u' next).1.2.vars =
      (globalsPass scriptMode file history u next).1.2.vars.map (Var.rename ρ)
    rw [vars, vars']
    rfl
  · have owned : ∀ r ∈ (bindUnit scriptMode file history u next).1.bodies, r.1.builtin = none :=
      bindUnit_own
    have own : ∀ r ∈ (bodiesPass scriptMode file history u next).1, r.1.builtin = none :=
      fun r member => owned r (addEntry_keeps _ _ member)
    have within : l.length + 1 < (bodiesPass scriptMode file history u next).1.length := by
      rw [← bodiesPass_areBodies.length_eq, declared, List.length_append]
      simp
    rw [bindUnit_bodies, bindUnit_bodies, ← bodiesAlike.related, ← entryAlike.related,
      ← statementsAlike.related.item, ← length]
    exact addEntry_exchange own bindUnit_ownEntry within

end

namespace Compilation

variable {options : Options} {history : List Declarations} {earlier : List Bodies}
  {u u' : Source.Unit} {next : Nat} {before behind : List Source.Function} {x y : Source.Function}

open Binding in
/-- There are numbers under which two functions can change places. -/
theorem exists_exchange (exchange : Exchange before x y behind u u')
    (keeps : ∀ ρ : Renaming, ρ.Fixes next → ρ.KeepsUnits history earlier)
    (noErrors : (compileAfter options history earlier u next).1.diagnostics.hasErrors = false) :
    ∃ ρ : Renaming, ρ.Fixes next ∧
      UnitExchanged ρ before.length (bindUnit options.scriptMode options.file history u next)
        (bindUnit options.scriptMode options.file history u' next) ∧
      (compileAfter options history earlier u' next).1.program.bodies = swapAt before.length
        ((compileAfter options history earlier u next).1.program.bodies.rename ρ) ∧
      (compileAfter options history earlier u' next).1.diagnostics.hasErrors = false := by
  obtain ⟨silent, noReports⟩ := compileAfter_noErrors noErrors
  have sources : (headsPass options.file history u next).1.1.map Prod.snd =
    before ++ x :: y :: behind := headsPass_makes.1.trans exchange.functions
  obtain ⟨l, p, q, t, declared, isBefore, isX, isY, isBehind⟩ := exists_declared sources
  have length : l.length = before.length := by rw [← isBefore, List.length_map]
  have within : before.length + 1 <
      (bindUnit options.scriptMode options.file history u next).1.bodies.length := by
    rw [bindUnit_bodies]
    refine Nat.lt_of_lt_of_le ?_ (length_le_addEntry _ _ _)
    rw [← bodiesPass_areBodies.length_eq, declared, List.length_append, length]
    simp
  obtain ⟨B, b, b', B', place, isBodies⟩ := exists_neighbours within
  obtain ⟨ρ, fixes, heads, between, bodies, lowering⟩ := Renaming.exists_exchanges (next + 5)
    (headCounts before) x.headCount y.headCount (headCounts behind)
    (Source.Stmt.symbolCountOf u.statements + entryCount
      (unitContext options.scriptMode options.file u)
      (globalsPass options.scriptMode options.file history u next).1.2
      (!(globalsPass options.scriptMode options.file history u next).1.1.isEmpty))
    (bodyCounts l) p.2.bodyCount q.2.bodyCount (bodyCounts t) (Bodies.lowerCount B)
    (Stmt.lowerCountOf b.2) (Stmt.lowerCountOf b'.2) (Bodies.lowerCount B')
  have endHeads : (headsPass options.file history u next).2.nextId =
      next + 5 + (headCounts before + (x.headCount + y.headCount + headCounts behind)) := by
    rw [headsPass_end, exchange.functions]
    simp [headCounts, Nat.add_assoc]
  rw [← endHeads] at between bodies lowering
  have endEntry := @entryPass_end options.file options.scriptMode history u next
  rw [globalsPass_end, Nat.add_assoc] at endEntry
  rw [← endEntry] at bodies lowering
  have endBodies : (bindUnit options.scriptMode options.file history u next).2 =
      (entryPass options.scriptMode options.file history u next).2.nextId +
        (bodyCounts l + (p.2.bodyCount + q.2.bodyCount + bodyCounts t)) := by
    refine bodiesPass_end.trans (congrArg _ ?_)
    rw [declared]
    simp [bodyCounts, Nat.add_assoc]
  rw [← endBodies] at lowering
  have fixesNext : ρ.Fixes next := fixes.le (Nat.le_add_right next 5)
  have unit := bindUnit_exchange exchange fixes.builtin (keeps ρ fixesNext).symbols declared length
    heads between bodies silent
  refine ⟨ρ, fixesNext, unit, ?_⟩
  have lowered : _ ∧ ((lowerBodies options (options.file <|> u'.file) u' _ _).1.2 = [] ↔
      (lowerBodies options (options.file <|> u.file) u _ _).1.2 = []) :=
    lowerBodies_exchange lowering
  rw [← isBodies, place, ← unit.bodies] at lowered
  refine ⟨?_, compileAfter_noErrors_of unit.noErrors ?_⟩
  · rw [compileAfter_eq]
    dsimp only
    rw [unit.next]
    exact lowered.1
  · rw [unit.next]
    exact lowered.2.2 ((lowerBodies_noErrors_iff _ _).1 noReports)

open Binding in
theorem compileAfter_exchange (exchange : Exchange before x y behind u u')
    (keeps : ∀ ρ : Renaming, ρ.Fixes next → ρ.KeepsUnits history earlier)
    (noErrors : (compileAfter options history earlier u next).1.diagnostics.hasErrors = false) :
    (compileAfter options history earlier u' next).1.diagnostics.hasErrors = false ∧
      ∃ number, Renumbers next number (compileAfter options history earlier u next).1
        (compileAfter options history earlier u' next).1 := by
  obtain ⟨ρ, fixes, unit, bodies, noErrors'⟩ := exists_exchange exchange keeps noErrors
  refine ⟨noErrors', ρ.own, ρ.injective, fixes.own, unit.vars, fun fuel globals host known => ?_⟩
  have renames : (compileAfter options history earlier u next).1.program.Renames ρ (fun _ => True)
      (compileAfter options history earlier u' next).1.program :=
    .of_exchange (keeps ρ fixes) compileAfter_own compileAfter_selfContained compileAfter_nodup
      bodies rfl
  exact renames.evaluate_renames noErrors noErrors' unit.entry
    (fun e isEntry => ⟨trivial, bindUnit_ownEntry e isEntry⟩) _ fuel (.same fixes.own known) host

theorem Renumbers.trans {start : Nat} {number number' : Nat → Nat} {c c' c'' : Compilation}
    (first : Renumbers start number c c') (second : Renumbers start number' c' c'') :
    Renumbers start (number' ∘ number) c c'' where
  injective := second.injective.comp first.injective
  fixes id bound := by rw [Function.comp_apply, first.fixes id bound, second.fixes id bound]
  vars := by
    rw [second.vars, first.vars, List.map_map]
    rfl
  outcomes fuel globals host known := by
    have one := first.outcomes fuel globals host known
    have two := second.outcomes fuel globals host known
    exact ⟨two.result.trans one.result, fun id => (two.globals _).trans (one.globals id),
      two.host.trans one.host⟩

theorem Renumbers.refl (start : Nat) (c : Compilation) : Renumbers start id c c where
  injective := Function.injective_id
  fixes _ _ := rfl
  vars := (List.map_id _).symm
  outcomes _ _ _ _ := ⟨rfl, fun _ => rfl, rfl⟩

/-- Only the functions of a unit, its statements and its file matter. -/
theorem compileAfter_congr (functions : u'.functions = u.functions)
    (statements : u'.statements = u.statements) (file : u'.file = u.file) :
    compileAfter options history earlier u' next = compileAfter options history earlier u next := by
  have bound : bindUnit options.scriptMode options.file history u' next =
      bindUnit options.scriptMode options.file history u next := by
    unfold bindUnit Binding.unit
    rw [functions, statements, file]
  have lowered (file : Option String) (bodies : Bodies) (n : Nat) :
      lowerBodies options file u' bodies n = lowerBodies options file u bodies n := by
    induction bodies generalizing n with
    | nil => rfl
    | cons p bodies ih =>
      have report : missingReturn file u' p.1 = missingReturn file u p.1 := by
        unfold missingReturn
        rw [functions]
      rw [lowerBodies_cons, lowerBodies_cons, report]
      simp only [ih]
  rw [compileAfter_eq, compileAfter_eq, bound, file]
  simp only [lowered]

end Compilation

namespace Source

def Unit.ofParts (mark : Mark) (file : Option String) (fs : List Function) (ss : List Stmt) : Unit :=
  ⟨mark, file, fs.map .function ++ ss.map (.statement mark)⟩

variable {mark : Mark} {file : Option String} {fs : List Function} {ss : List Stmt}

theorem Unit.functions_ofParts : (ofParts mark file fs ss).functions = fs := by
  simp [functions, ofParts, List.filterMap_map]

theorem Unit.statements_ofParts : (ofParts mark file fs ss).statements = ss := by
  simp [statements, ofParts, List.filterMap_map]

end Source

namespace Compilation

variable {options : Options} {history : List Declarations} {earlier : List Bodies} {next : Nat}

/-- Whatever the order of the functions, a unit is compiled to the same under other numbers. -/
theorem compileAfter_reorder {fs fs' : List Source.Function} (perm : fs.Perm fs')
    (keeps : ∀ ρ : Renaming, ρ.Fixes next → ρ.KeepsUnits history earlier)
    (before : List Source.Function) {u u' : Source.Unit} (functions : u.functions = before ++ fs)
    (functions' : u'.functions = before ++ fs') (statements : u'.statements = u.statements)
    (file : u'.file = u.file)
    (noErrors : (compileAfter options history earlier u next).1.diagnostics.hasErrors = false) :
    (compileAfter options history earlier u' next).1.diagnostics.hasErrors = false ∧
      ∃ number, Renumbers next number (compileAfter options history earlier u next).1
        (compileAfter options history earlier u' next).1 := by
  induction perm generalizing before u u' with
  | nil =>
    rw [compileAfter_congr (functions'.trans functions.symm) statements file]
    exact ⟨noErrors, id, .refl _ _⟩
  | cons f perm ih =>
    rw [← List.singleton_append, ← List.append_assoc] at functions functions'
    exact ih _ functions functions' statements file noErrors
  | swap f g fs => exact compileAfter_exchange ⟨functions, functions', statements⟩ keeps noErrors
  | @trans fs₁ fs₂ fs₃ perm perm' ih ih' =>
    have between : (Source.Unit.ofParts u.mark u.file (before ++ fs₂) u.statements).functions =
      before ++ fs₂ := Source.Unit.functions_ofParts
    have same : (Source.Unit.ofParts u.mark u.file (before ++ fs₂) u.statements).statements =
      u.statements := Source.Unit.statements_ofParts
    obtain ⟨noErrors₂, number, renumbers⟩ := ih before functions between same rfl noErrors
    obtain ⟨noErrors₃, number', renumbers'⟩ := ih' before between functions'
      (statements.trans same.symm) file noErrors₂
    exact ⟨noErrors₃, number' ∘ number, renumbers.trans renumbers'⟩

/-- The order of functions does not matter. When the functions of a unit without errors are moved
anywhere between its statements, it has no errors either, and only numbers are different: whatever
it starts with, it has the same result, it gives its variables the same values, and it does the same
with the host. -/
theorem chain_allows_any_order (options : Options) (us : List Source.Unit) (next : Nat) :
    ∀ g ∈ generations options us next, g.compiled.diagnostics.hasErrors = false →
      ∀ u' : Source.Unit, u'.file = g.unit.file → u'.members.Perm g.unit.members →
        u'.statements = g.unit.statements →
        let c' := (compileAfter options g.compiled.history g.compiled.program.earlier u' g.start).1
        c'.diagnostics.hasErrors = false ∧ ∃ number, Renumbers g.start number g.compiled c' := by
  intro g member noErrors u' file perm statements
  have keeps (ρ : Renaming) (fixes : ρ.Fixes g.start) :
      ρ.KeepsUnits g.compiled.history g.compiled.program.earlier :=
    generationsAfter_keepsUnits us ⟨List.forall_mem_nil _, List.forall_mem_nil _,
      List.forall_mem_nil _, List.forall_mem_nil _⟩ g member fixes
  have compiled : g.compiled =
      (compileAfter options g.compiled.history g.compiled.program.earlier g.unit g.start).1 :=
    generationsAfter_compiled us g member
  have functions : g.unit.functions.Perm u'.functions := (perm.filterMap _).symm
  rw [compiled] at noErrors
  have reordered := compileAfter_reorder functions keeps [] rfl rfl statements file noErrors
  rw [← compiled] at reordered
  exact reordered

end Compilation

namespace Parity

open Source

def first : Source.Unit := (Sketch.Unit.place ⟨none, [
  .statement (.declare .varKeyword "count" none (.literal (.int 0)))]⟩ .start).1

def even : Source.Function := (Sketch.Function.place ⟨"even", [("n", "int")], some "bool", [
  .expr (.assign "count" .equals (.binary (.name "count") .plus (.literal (.int 1)))),
  .ifThen (.binary (.name "n") .equalsEquals (.literal (.int 0))) (.ret (some (.literal (.bool true)))),
  .ret (some (.call "odd" [.binary (.name "n") .minus (.literal (.int 1))]))]⟩ ⟨20, 10⟩).1

def odd : Source.Function := (Sketch.Function.place ⟨"odd", [("n", "int")], some "bool", [
  .ifThen (.binary (.name "n") .equalsEquals (.literal (.int 0))) (.ret (some (.literal (.bool false)))),
  .ret (some (.call "even" [.binary (.name "n") .minus (.literal (.int 1))]))]⟩ ⟨120, 60⟩).1

def ask : Source.Stmt :=
  (Sketch.Stmt.place (.expr (.call "print" [.call "odd" [.literal (.int 3)]])) ⟨220, 110⟩).1

def report : Source.Stmt :=
  (Sketch.Stmt.place (.expr (.call "print" [.name "count"])) ⟨260, 130⟩).1

def second : Source.Unit :=
  ⟨report.mark, none, [.function even, .function odd, .statement ask.mark ask,
    .statement report.mark report]⟩

def reordered : Source.Unit :=
  ⟨report.mark, none, [.function odd, .statement ask.mark ask, .function even,
    .statement report.mark report]⟩

theorem reordered_perm : reordered.members.Perm second.members := by
  refine .trans ?_ (.swap _ _ _)
  exact .cons _ (.swap _ _ _)

theorem reordered_statements : reordered.statements = second.statements := by
  simp only [reordered, second, Unit.statements, List.filterMap_cons, List.filterMap_nil]

end Parity

/-- Behind a unit with a variable, two functions that call one another may stand before and behind
the statements. -/
theorem parity_reordered : ∃ g ∈ Compilation.generations .standard [Parity.first, Parity.second] 0,
    g.start ≠ 0 ∧ g.compiled.diagnostics.hasErrors = false ∧ g.unit = Parity.second ∧
      let c' := (Compilation.compileAfter .standard g.compiled.history g.compiled.program.earlier
        Parity.reordered g.start).1
      c'.diagnostics.hasErrors = false ∧
        ∃ number, Compilation.Renumbers g.start number g.compiled c' := by
  have last : ∃ g ∈ Compilation.generations .standard [Parity.first, Parity.second] 0,
      g.start ≠ 0 ∧ g.compiled.diagnostics.hasErrors = false ∧ g.unit.functions.length = 2 := by
    decide +kernel
  obtain ⟨g, member, isLater, noErrors, two⟩ := last
  have isSecond : g.unit = Parity.second := by
    have among : g.unit ∈ _ := List.mem_map_of_mem member
    rw [Compilation.generations_units] at among
    simp only [List.mem_cons, List.not_mem_nil, or_false] at among
    exact among.resolve_left fun isFirst => absurd (isFirst ▸ two) (by decide +kernel)
  refine ⟨g, member, isLater, noErrors, isSecond, ?_⟩
  exact Compilation.chain_allows_any_order .standard [Parity.first, Parity.second] 0 g member
    noErrors Parity.reordered (by rw [isSecond]; rfl) (by rw [isSecond]; exact Parity.reordered_perm)
    (by rw [isSecond]; exact Parity.reordered_statements)

end ScriptLang
