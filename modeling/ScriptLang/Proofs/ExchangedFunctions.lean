import ScriptLang.Proofs.RenamedUnits

/-! All heads of functions are declared before anything else of a unit is bound. So two neighbours that
change places only change numbers: with these, each pass over the unit does the same, and the heads
and the bodies of the two change places. -/

namespace ScriptLang

def swapAt {α : Type} : Nat → List α → List α
  | 0, a :: b :: as => b :: a :: as
  | i + 1, a :: as => a :: swapAt i as
  | _, as => as

section

variable {α β : Type}

theorem swapAt_append_right {i : Nat} (before as : List α) (place : before.length = i) :
    swapAt i (before ++ as) = before ++ swapAt 0 as := by
  subst place
  induction before with
  | nil => rfl
  | cons a before ih => exact congrArg (List.cons a) ih

theorem swapAt_zero_append {as : List α} (behind : List α) (isPair : as.length = 2) :
    swapAt 0 (as ++ behind) = swapAt 0 as ++ behind := by
  obtain ⟨a, b, rfl⟩ := List.length_eq_two.1 isPair
  rfl

theorem swapAt_perm (i : Nat) (as : List α) : (swapAt i as).Perm as := by
  induction i, as using swapAt.induct with
  | case1 a b as => exact .swap a b as
  | case2 i a as ih => exact ih.cons a
  | case3 i as noPair noMore =>
    have same : swapAt i as = as := by
      rw [swapAt]
      · exact noPair
      · exact noMore
    rw [same]

/-- Two neighbours of a list, with what stands before and behind them. -/
theorem exists_neighbours {i : Nat} {as : List α} (within : i + 1 < as.length) :
    ∃ before a b behind, before.length = i ∧ as = before ++ a :: b :: behind := by
  refine ⟨as.take i, as[i], as[i + 1], as.drop (i + 2), ?_, ?_⟩
  · exact List.length_take_of_le (by omega)
  · rw [List.getElem_cons_drop, List.getElem_cons_drop, List.take_append_drop]

end

namespace Bind.Parallel

variable {α β γ δ ε ζ : Type} {same : Prop} {R : α → β → Prop} {Q : γ → δ → Prop}
  {T : ε → ζ → Prop} {n n' j k : Nat}

/-- Two computations that do not need one another change places. -/
theorem swap {x : Bind α} {x' : Bind β} {y : Bind γ} {y' : Bind δ} {f : α → γ → ε} {g : β → δ → ζ}
    (first : Parallel same n (n' + k) j R x x') (second : Parallel same (n + j) n' k Q y y')
    (related : ∀ a b c d, R a b → Q c d → T (f a c) (g b d)) :
    Parallel False n n' (j + k) T (do let a ← x; let c ← y; return f a c)
      (do let d ← y'; let b ← x'; return g b d) := by
  intro d d'
  obtain ⟨countX, _, keepX, _⟩ := first d d'
  obtain ⟨countY, countY', keepY, inY⟩ := second (x ⟨n, d⟩).2.diagnostics d'
  obtain ⟨_, countX', keepX', inX⟩ := first d (y' ⟨n', d'⟩).2.diagnostics
  rw [← countX] at countY keepY inY
  rw [← countY'] at countX' keepX' inX
  refine ⟨?_, ?_, ⟨fun silent => ?_, False.elim⟩, related _ _ _ _ inX inY⟩
  · exact countY.trans (by rw [countX, Nat.add_assoc])
  · exact countX'.trans (by rw [countY', Nat.add_assoc, Nat.add_comm k])
  · obtain ⟨between, later⟩ := keepY.silence silent
    exact ⟨(keepX.silence between).1, fun clean => (keepX'.silence between).2 (later clean)⟩

end Bind.Parallel

theorem Scope.Renamed.replace_swap {ρ : Renaming} {among declares : String → Prop} {a b : Scope}
    (renamed : a.Renamed ρ among declares b) {name other : String} (differ : name ≠ other)
    (symbol second : Symbol) :
    ((a.replace name symbol).replace other second).Renamed ρ among declares
      ((b.replace other (second.rename ρ)).replace name (symbol.rename ρ)) := by
  have straight := (renamed.replace name symbol).replace other second
  refine ⟨fun asked isAmong => ?_, fun asked isDeclared => ?_⟩
  · rw [← straight.lookup asked isAmong]
    simp only [Scope.lookup?_replace]
    by_cases isName : asked = name
    · simp [isName, differ]
    · simp [isName]
  · rw [← straight.inner asked isDeclared]
    simp only [Scope.lookupLocal?_replace]
    by_cases isName : asked = name
    · simp [isName, differ]
    · simp [isName]

namespace Binding

variable {ρ : Renaming} {file file' : Option String} {among declares : String → Prop} {a b : Scope}
  {n n' : Nat} {x y : Source.Function}

theorem addFn_of_new {scope : Scope} {f : Source.Function}
    (new : scope.inner.contains f.name.text = false) (fn : Fn) :
    addFn file scope f fn = pure (fn, scope.replace f.name.text (.fn fn)) := by
  unfold addFn Scope.declare?
  rw [new]
  rfl

structure New (scope : Scope) (x y : Source.Function) : Prop where
  first : scope.inner.contains x.name.text = false
  second : scope.inner.contains y.name.text = false
  differ : x.name.text ≠ y.name.text

def withBoth (scope : Scope) (x y : Source.Function) (fx fy : Fn) :
    List (Fn × Source.Function) × Scope :=
  ([(fx, x), (fy, y)], (scope.replace x.name.text (.fn fx)).replace y.name.text (.fn fy))

theorem declareFns_pair {scope : Scope} (new : New scope x y) :
    declareFns file scope [x, y] = (do
      let fx ← head file x
      let fy ← head file y
      return withBoth scope x y fx fy) := by
  simp only [declareFns, declareFn_eq_head, addFn_of_new new.first, bind_assoc, pure_bind]
  refine bind_congr fun fx => ?_
  simp only [addFn_of_new (Scope.new_replace_iff.2 ⟨new.differ.symm, new.second⟩), pure_bind]
  rfl

theorem vars_withBoth {scope : Scope} (new : New scope x y) (fx fy : Fn) :
    (withBoth scope x y fx fy).2.vars = scope.vars :=
  (Scope.vars_replace_fn fy (Scope.new_replace_iff.2 ⟨new.differ.symm, new.second⟩)).trans
    (Scope.vars_replace_fn fx new.first)

/-- Two heads change places. -/
theorem declareFns_swap (renamed : a.Renamed ρ among declares b)
    (areDeclared : declares x.name.text ∧ declares y.name.text) (new : New a x y)
    (shiftsX : ρ.Shifts n (n' + y.headCount) x.headCount)
    (shiftsY : ρ.Shifts (n + x.headCount) n' y.headCount) :
    Bind.Parallel False n n' (x.headCount + y.headCount)
      (Scope.RenamedBehind ρ among declares a b
        fun r => swapAt 0 (r.map (Prod.map (Fn.rename ρ) id)))
      (declareFns file a [x, y]) (declareFns file' b [y, x]) := by
  have new' : New b y x := ⟨(renamed.contains areDeclared.2).trans new.second,
    (renamed.contains areDeclared.1).trans new.first, new.differ.symm⟩
  rw [declareFns_pair new, declareFns_pair new']
  refine (head_renames x shiftsX).swap (head_renames y shiftsY) ?_
  rintro fx _ fy _ rfl rfl
  refine ⟨rfl, renamed.replace_swap new.differ (.fn fx) (.fn fy), [], ?_, ?_⟩
  · rw [vars_withBoth new, List.append_nil]
  · rw [vars_withBoth new', List.map_nil, List.append_nil]

/-- A head can be made without a mistake only where none has been made before. -/
theorem head_sound {given : Prop} (f : Source.Function) :
    Sound given (head file f) fun _ => True := by
  intro s silent
  have parallel : Bind.Parallel _ s.nextId s.nextId f.headCount (Fn.rename Renaming.identity · = ·)
      (head file f) (head file f) := head_renames f fun _ _ => rfl
  exact ⟨((parallel s.diagnostics s.diagnostics).2.2.1.silence silent).1, fun _ => trivial⟩

theorem addFn_sound {given : Prop} {scope : Scope} (f : Source.Function) (fn : Fn) :
    Sound given (addFn file scope f fn) fun r =>
      scope.inner.contains f.name.text = false ∧ r.2 = scope.replace f.name.text (.fn fn) := by
  unfold addFn Scope.declare?
  cases known : scope.inner.contains f.name.text with
  | true => exact Sound.refused rfl
  | false => exact .pure fun _ => ⟨rfl, rfl⟩

/-- Without a mistake, functions get different names, which are new in the scope. -/
theorem declareFns_new {given : Prop} {scope : Scope} (fs : List Source.Function) :
    Sound given (declareFns file scope fs) fun _ =>
      (fs.map (·.name.text)).Nodup ∧ ∀ f ∈ fs, scope.inner.contains f.name.text = false := by
  induction fs generalizing given scope with
  | nil => exact .pure fun _ => ⟨.nil, List.forall_mem_nil _⟩
  | cons f fs ih =>
    unfold declareFns
    rw [declareFn_eq_head, bind_assoc]
    refine (head_sound f).bind fun fn => (addFn_sound f fn).bind fun r => ih.bind fun rest => ?_
    refine .pure fun known => ?_
    obtain ⟨⟨_, new, declared⟩, nodup, news⟩ := known
    refine ⟨List.nodup_cons.2 ⟨?_, nodup⟩, List.forall_mem_cons.2 ⟨new, fun g member => ?_⟩⟩
    · rintro again
      obtain ⟨g, member, same⟩ := List.mem_map.1 again
      exact (Scope.new_replace_iff.1 (declared ▸ news g member)).1 same
    · exact (Scope.new_replace_iff.1 (declared ▸ news g member)).2

/-- Names that are new in a scope and different from those of functions are new behind these. -/
theorem declareFns_others {scope : Scope} (fs : List Source.Function) :
    Yields (declareFns file scope fs) fun r => ∀ name ∉ fs.map (·.name.text),
      scope.inner.contains name = false → r.2.inner.contains name = false := by
  induction fs generalizing scope with
  | nil => exact .pure fun _ _ => id
  | cons f fs ih =>
    have added (fn : Fn) : Yields (addFn file scope f fn) fun r => ∀ name, name ≠ f.name.text →
        scope.inner.contains name = false → r.2.inner.contains name = false := by
      unfold addFn Scope.declare?
      cases scope.inner.contains f.name.text with
      | true => exact .after fun _ => .pure fun _ _ => id
      | false => exact .pure fun _ differs new => Scope.new_replace_iff.2 ⟨differs, new⟩
    unfold declareFns
    rw [declareFn_eq_head, bind_assoc]
    refine .after fun fn => (added fn).bind fun r first => ih.bind fun rest later => ?_
    refine .pure fun name others new => ?_
    rw [List.map_cons, List.mem_cons, not_or] at others
    exact later name others.2 (first name others.1 new)

end Binding

/-- From `n` on, `i` numbers stay, a row of `j` numbers and one of `k` numbers change places, and `l`
more numbers stay. -/
structure Renaming.Exchanges (ρ : Renaming) (n i j k l : Nat) : Prop where
  before : ρ.Shifts n n i
  first : ρ.Shifts (n + i) (n + i + k) j
  second : ρ.Shifts (n + i + j) (n + i) k
  behind : ρ.Shifts (n + i + (j + k)) (n + i + (j + k)) l

namespace Binding

variable {ρ : Renaming} {file file' : Option String} {a b : Scope} {n : Nat}
  {before behind : List Source.Function} {x y : Source.Function}

/-- The first two heads change places, whatever stands behind them. -/
theorem declareFns_swapFirst (renamed : a.Renamed ρ (fun _ => True) (fun _ => True) b)
    (new : New a x y) (shiftsX : ρ.Shifts n (n + y.headCount) x.headCount)
    (shiftsY : ρ.Shifts (n + x.headCount) n y.headCount)
    (rest : ρ.Shifts (n + (x.headCount + y.headCount)) (n + (x.headCount + y.headCount))
      (headCounts behind)) :
    Bind.Parallel False n n (x.headCount + y.headCount + headCounts behind)
      (Scope.RenamedBehind ρ (fun _ => True) (fun _ => True) a b
        fun r => swapAt 0 (r.map (Prod.map (Fn.rename ρ) id)))
      (declareFns file a ([x, y] ++ behind)) (declareFns file' b ([y, x] ++ behind)) := by
  rw [declareFns_append, declareFns_append]
  have swapped : Bind.Parallel False n n (x.headCount + y.headCount) _ (declareFns file a [x, y])
      (declareFns file' b [y, x]) :=
    (declareFns_swap renamed ⟨trivial, trivial⟩ new shiftsX shiftsY).yielding
      (declareFns_make [x, y])
  refine swapped.bind fun r r' first => ?_
  obtain ⟨first, sources, _⟩ := first
  refine (declareFns_renames first.scope behind (fun _ _ => trivial) rest).silently.followed
    fun u u' second => ?_
  have isPair : (r.1.map (Prod.map (Fn.rename ρ) id)).length = 2 := by
    rw [List.length_map, ← List.length_map Prod.snd, sources]
    rfl
  refine .pure (first.trans second ?_)
  rw [List.map_append, swapAt_zero_append _ isPair, first.item, second.item]

/-- Two neighbours change places among the heads of a unit. -/
theorem declareFns_exchange (renamed : a.Renamed ρ (fun _ => True) (fun _ => True) b)
    (nodup : ((before ++ x :: y :: behind).map (·.name.text)).Nodup)
    (newX : a.inner.contains x.name.text = false) (newY : a.inner.contains y.name.text = false)
    (exchanges : ρ.Exchanges n (headCounts before) x.headCount y.headCount (headCounts behind)) :
    Bind.Parallel False n n (headCounts before + (x.headCount + y.headCount + headCounts behind))
      (Scope.RenamedBehind ρ (fun _ => True) (fun _ => True) a b
        fun r => swapAt before.length (r.map (Prod.map (Fn.rename ρ) id)))
      (declareFns file a (before ++ x :: y :: behind))
      (declareFns file' b (before ++ y :: x :: behind)) := by
  have others : x.name.text ∉ before.map (·.name.text) ∧ y.name.text ∉ before.map (·.name.text) ∧
      x.name.text ≠ y.name.text := by
    rw [List.map_append, List.nodup_append] at nodup
    obtain ⟨_, pair, apart⟩ := nodup
    refine ⟨fun again => apart _ again _ List.mem_cons_self rfl,
      fun again => apart _ again _ (List.mem_cons_of_mem _ List.mem_cons_self) rfl, fun same => ?_⟩
    exact (List.nodup_cons.1 pair).1 (List.mem_cons.2 (.inl same))
  have split : before ++ x :: y :: behind = before ++ ([x, y] ++ behind) := rfl
  have split' : before ++ y :: x :: behind = before ++ ([y, x] ++ behind) := rfl
  have known : Yields (declareFns file a before) fun r => r.1.length = before.length ∧
      New r.2 x y := by
    have made : Yields (declareFns file a before) fun r => r.1.map Prod.snd = before ∧ _ :=
      declareFns_make before
    have news : Yields (declareFns file a before) _ := declareFns_others before
    refine fun s => ⟨?_, news s _ others.1 newX, news s _ others.2.1 newY, others.2.2⟩
    rw [← List.length_map Prod.snd, (made s).1]
  rw [split, split', declareFns_append, declareFns_append]
  have started : Bind.Parallel False n n (headCounts before) _ (declareFns file a before)
      (declareFns file' b before) :=
    (declareFns_renames renamed before (fun _ _ => trivial) exchanges.before).silently.yielding known
  refine started.bind fun r r' first => ?_
  obtain ⟨first, length, new⟩ := first
  refine (declareFns_swapFirst first.scope new exchanges.first exchanges.second
    exchanges.behind).followed fun u u' second => ?_
  refine .pure (first.trans second ?_)
  rw [List.map_append, swapAt_append_right _ _ ((List.length_map _).trans length), first.item,
    second.item]

variable {c c' : BindContext} {p q : Fn × Source.Function}
  {before behind : List (Fn × Source.Function)}

def bodyCounts (declared : List (Fn × Source.Function)) : Nat := (declared.map (·.2.bodyCount)).sum

theorem functionBodies_pair {scope : Scope} : functionBodies c scope [p, q] = (do
    let first ← functionBody c scope p.1 p.2
    let second ← functionBody c scope q.1 q.2
    return [(p.1, first), (q.1, second)]) := by
  simp only [functionBodies, bind_assoc, pure_bind]

/-- The first two bodies change places, whatever stands behind them. -/
theorem functionBodies_swapFirst (context : c.Renamed ρ c')
    (renamed : a.Renamed ρ (fun _ => True) (fun _ => True) b)
    (own : ∀ r ∈ p :: q :: behind, r.1.builtin = none)
    (shiftsP : ρ.Shifts n (n + q.2.bodyCount) p.2.bodyCount)
    (shiftsQ : ρ.Shifts (n + p.2.bodyCount) n q.2.bodyCount)
    (rest : ρ.Shifts (n + (p.2.bodyCount + q.2.bodyCount)) (n + (p.2.bodyCount + q.2.bodyCount))
      (bodyCounts behind)) :
    Bind.Parallel False n n (p.2.bodyCount + q.2.bodyCount + bodyCounts behind)
      (fun r r' => swapAt 0 (Bodies.rename ρ r) = r') (functionBodies c a ([p, q] ++ behind))
      (functionBodies c' b
        (swapAt 0 (([p, q] ++ behind).map (Prod.map (Fn.rename ρ) id)))) := by
  obtain ⟨ownP, own⟩ := List.forall_mem_cons.1 own
  obtain ⟨ownQ, ownRest⟩ := List.forall_mem_cons.1 own
  rw [List.map_append, swapAt_zero_append _ rfl, functionBodies_append, functionBodies_append]
  have swapped : Bind.Parallel False n n (p.2.bodyCount + q.2.bodyCount)
      (fun r r' => swapAt 0 (Bodies.rename ρ r) = r' ∧ r.length = 2) (functionBodies c a [p, q])
      (functionBodies c' b (swapAt 0 ([p, q].map (Prod.map (Fn.rename ρ) id)))) := by
    have pair : functionBodies c' b (swapAt 0 ([p, q].map (Prod.map (Fn.rename ρ) id))) = _ :=
      functionBodies_pair
    rw [functionBodies_pair, pair]
    refine (functionBody_renames context renamed ownP (fun _ _ => trivial) shiftsP).swap
      (functionBody_renames context renamed ownQ (fun _ _ => trivial) shiftsQ) ?_
    rintro first _ second _ rfl rfl
    exact ⟨rfl, rfl⟩
  refine swapped.bind fun r r' ⟨first, isPair⟩ => ?_
  refine (functionBodies_renames context renamed behind ownRest (fun _ _ _ _ => trivial)
    rest).silently.followed ?_
  rintro u _ rfl
  refine .pure ?_
  rw [Bodies.rename, List.map_append, swapAt_zero_append _ ((List.length_map _).trans isPair)]
  exact congrArg (· ++ _) first

/-- Two neighbours change places among the bodies of a unit. -/
theorem functionBodies_exchange (context : c.Renamed ρ c')
    (renamed : a.Renamed ρ (fun _ => True) (fun _ => True) b)
    (own : ∀ r ∈ before ++ p :: q :: behind, r.1.builtin = none)
    (exchanges : ρ.Exchanges n (bodyCounts before) p.2.bodyCount q.2.bodyCount
      (bodyCounts behind)) :
    Bind.Parallel False n n (bodyCounts before + (p.2.bodyCount + q.2.bodyCount + bodyCounts behind))
      (fun r r' => swapAt before.length (Bodies.rename ρ r) = r')
      (functionBodies c a (before ++ p :: q :: behind))
      (functionBodies c' b
        (swapAt before.length ((before ++ p :: q :: behind).map (Prod.map (Fn.rename ρ) id)))) := by
  obtain ⟨ownBefore, ownRest⟩ := List.forall_mem_append.1 own
  have split : before ++ p :: q :: behind = before ++ ([p, q] ++ behind) := rfl
  rw [split, List.map_append, swapAt_append_right _ _ (List.length_map _),
    functionBodies_append c a before, functionBodies_append c']
  have areBodies : Yields (functionBodies c a before) fun r => r.length = before.length :=
    fun s => (functionBodies_areBodies before s).length_eq.symm
  have started : Bind.Parallel False n n (bodyCounts before) _ (functionBodies c a before) _ :=
    (functionBodies_renames context renamed before ownBefore (fun _ _ _ _ => trivial)
      exchanges.before).silently.yielding areBodies
  refine started.bind fun r r' first => ?_
  obtain ⟨rfl, length⟩ := first
  refine (functionBodies_swapFirst context renamed ownRest exchanges.first exchanges.second
    exchanges.behind).followed ?_
  rintro u _ rfl
  refine .pure ?_
  rw [Bodies.rename, List.map_append, swapAt_append_right _ _ ((List.length_map _).trans length)]
  rfl

end Binding

theorem Bodies.rename_neighbours {ρ : Renaming} {before behind : Bodies} {p q : Fn × Body} :
    swapAt before.length (Bodies.rename ρ (before ++ p :: q :: behind)) =
      Bodies.rename ρ before ++ (Bodies.rename ρ [q] ++
        (Bodies.rename ρ [p] ++ Bodies.rename ρ behind)) := by
  rw [Bodies.rename, List.map_append, swapAt_append_right _ _ (List.length_map _)]
  rfl

namespace Compilation

variable {ρ : Renaming} {options : Options} {file file' : Option String} {u u' : Source.Unit} {n : Nat}
  {before behind : Bodies} {p q : Fn × Body}

theorem length_lowerBodies (bodies : Bodies) :
    (lowerBodies options file u bodies n).1.1.length = bodies.length := by
  have keys : (lowerBodies options file u bodies n).1.1.map Prod.fst = _ := lowerBodies_keys bodies n
  simpa using congrArg List.length keys

/-- Two neighbours change places among the lowered bodies of a unit. -/
theorem lowerBodies_exchange
    (exchanges : ρ.Exchanges n before.lowerCount (Stmt.lowerCountOf p.2) (Stmt.lowerCountOf q.2)
      behind.lowerCount) :
    let lowered := (lowerBodies options file u (before ++ p :: q :: behind) n).1
    let lowered' := (lowerBodies options file' u'
      (swapAt before.length (Bodies.rename ρ (before ++ p :: q :: behind))) n).1
    lowered'.1 = swapAt before.length (Bodies.rename ρ lowered.1) ∧
      (lowered'.2 = [] ↔ lowered.2 = []) := by
  have first : LoweredAlike ρ (lowerBodies options file u before n).1
      (lowerBodies options file' u' (Bodies.rename ρ before) n).1 :=
    lowerBodies_rename before exchanges.before
  have ofP : LoweredAlike ρ (lowerBodies options file u [p] (n + before.lowerCount)).1
      (lowerBodies options file' u' (Bodies.rename ρ [p])
        (n + before.lowerCount + Stmt.lowerCountOf q.2)).1 :=
    lowerBodies_rename [p] exchanges.first
  have ofQ : LoweredAlike ρ
      (lowerBodies options file u [q] (n + before.lowerCount + Stmt.lowerCountOf p.2)).1
      (lowerBodies options file' u' (Bodies.rename ρ [q]) (n + before.lowerCount)).1 :=
    lowerBodies_rename [q] exchanges.second
  have last : LoweredAlike ρ (lowerBodies options file u behind
        (n + before.lowerCount + (Stmt.lowerCountOf p.2 + Stmt.lowerCountOf q.2))).1
      (lowerBodies options file' u' (Bodies.rename ρ behind)
        (n + before.lowerCount + (Stmt.lowerCountOf p.2 + Stmt.lowerCountOf q.2))).1 :=
    lowerBodies_rename behind exchanges.behind
  have countP : Bodies.lowerCount [p] = Stmt.lowerCountOf p.2 := rfl
  have countQ : Bodies.lowerCount [q] = Stmt.lowerCountOf q.2 := rfl
  have split : before ++ p :: q :: behind = before ++ ([p] ++ ([q] ++ behind)) := rfl
  have sums : n + before.lowerCount + Stmt.lowerCountOf q.2 + Stmt.lowerCountOf p.2 =
    n + before.lowerCount + (Stmt.lowerCountOf p.2 + Stmt.lowerCountOf q.2) := by omega
  have sums' : n + before.lowerCount + Stmt.lowerCountOf p.2 + Stmt.lowerCountOf q.2 =
    n + before.lowerCount + (Stmt.lowerCountOf p.2 + Stmt.lowerCountOf q.2) := by omega
  rw [Bodies.rename_neighbours, split]
  simp only [lowerBodies_append, lowerBodies_count, Bodies.lowerCount_rename, countP, countQ, sums,
    sums', first.bodies, ofP.bodies, ofQ.bodies, last.bodies, List.append_eq_nil_iff, first.reports,
    ofP.reports, ofQ.reports, last.reports]
  refine ⟨?_, by tauto⟩
  have place : ((lowerBodies options file u before n).1.1.map
      (Prod.map (Fn.rename ρ) (Body.rename ρ))).length = before.length := by
    rw [List.length_map, length_lowerBodies]
  rw [Bodies.rename, Bodies.rename, Bodies.rename, Bodies.rename, Bodies.rename, List.map_append,
    swapAt_append_right _ _ place]
  rfl

end Compilation

structure Bind.Abreast {α β : Type} (R : α → β → Prop) (r : α × BindState) (r' : β × BindState) :
    Prop where
  next : r'.2.nextId = r.2.nextId
  silent : r'.2.Silent
  related : R r.1 r'.1

theorem Bind.Parallel.abreast {α β : Type} {same : Prop} {R : α → β → Prop} {x : Bind α}
    {y : Bind β} {k : Nat} {s s' : BindState} (parallel : Parallel same s.nextId s.nextId k R x y)
    (next : s'.nextId = s.nextId) (silent : (x s).2.Silent) (silent' : s'.Silent) :
    Abreast R (x s) (y s') := by
  obtain ⟨count, count', keep, related⟩ := parallel s.diagnostics s'.diagnostics
  have start : (⟨s.nextId, s'.diagnostics⟩ : BindState) = s' := by rw [← next]
  rw [start] at count' keep related
  exact ⟨count'.trans count.symm, (keep.silence silent).2 silent', related⟩

/-- In the second unit two functions have changed places, and statements may stand elsewhere between
the functions. -/
structure Exchange (before : List Source.Function) (x y : Source.Function)
    (behind : List Source.Function) (u u' : Source.Unit) : Prop where
  functions : u.functions = before ++ x :: y :: behind
  functions' : u'.functions = before ++ y :: x :: behind
  statements : u'.statements = u.statements

namespace Binding

variable {ρ : Renaming} {scriptMode : Bool} {file : Option String} {history : List Declarations}
  {u u' : Source.Unit} {next : Nat} {before behind : List Source.Function} {x y : Source.Function}

theorem headsPass_exchange (exchange : Exchange before x y behind u u')
    (kept : (unitScope history next).Holds ρ.Keeps)
    (exchanges :
      ρ.Exchanges (next + 5) (headCounts before) x.headCount y.headCount (headCounts behind))
    (silent : (headsPass file history u next).2.Silent) :
    Bind.Abreast
      (Scope.RenamedBehind ρ (fun _ => True) (fun _ => True) (unitScope history next)
        (unitScope history next) fun r => swapAt before.length (r.map (Prod.map (Fn.rename ρ) id)))
      (headsPass file history u next) (headsPass file history u' next) := by
  unfold headsPass at silent ⊢
  rw [exchange.functions] at silent ⊢
  rw [exchange.functions']
  have new : Sound True (declareFns (file <|> u.file) (unitScope history next)
      (before ++ x :: y :: behind)) _ := declareFns_new _
  have nodup := ((new _ silent).2 trivial).1
  exact Bind.Parallel.abreast (declareFns_exchange kept.renamed nodup rfl rfl exchanges) rfl silent rfl

theorem globalsPass_exchange {rename} (exchange : Exchange before x y behind u u')
    (heads : Bind.Abreast (Scope.RenamedBehind ρ (fun _ => True) (fun _ => True)
        (unitScope history next) (unitScope history next) rename)
      (headsPass file history u next) (headsPass file history u' next))
    (fixes : ρ.Shifts (headsPass file history u next).2.nextId
      (headsPass file history u next).2.nextId (Source.Stmt.symbolCountOf u.statements))
    (silent : (globalsPass scriptMode file history u next).2.Silent) :
    Bind.Abreast
      (Scope.RenamedBehind ρ (fun _ => True) (fun _ => True) (headsPass file history u next).1.2
        (headsPass file history u' next).1.2 (List.map (Stmt.rename ρ)))
      (globalsPass scriptMode file history u next) (globalsPass scriptMode file history u' next) := by
  unfold globalsPass at silent ⊢
  dsimp only at silent ⊢
  rw [exchange.statements]
  exact Bind.Parallel.abreast (globals_renames renamed_unitContext heads.related.scope u.statements
    (fun _ _ => trivial) (fun _ _ _ _ => trivial) fixes) heads.next silent heads.silent

theorem find?_exchange {declared : List (Fn × Source.Function)} {i : Nat} {main : Fn}
    (own : ∀ p ∈ declared, p.1.builtin = none) (ownMain : main.builtin = none) :
    ((swapAt i (declared.map (Prod.map (Fn.rename ρ) id))).find?
        (·.1.id = (main.rename ρ).id)).isSome =
      (declared.find? (·.1.id = main.id)).isSome := by
  rw [List.isSome_find?, List.isSome_find?, (swapAt_perm _ _).any_eq, List.any_map, Bool.eq_iff_iff,
    List.any_eq_true, List.any_eq_true]
  refine exists_congr fun p => and_congr_right fun member => ?_
  simp [Fn.id_rename (own p member), Fn.id_rename ownMain]

theorem entryPass_exchange {i : Nat}
    (heads : Bind.Abreast (Scope.RenamedBehind ρ (fun _ => True) (fun _ => True)
        (unitScope history next) (unitScope history next)
        fun r => swapAt i (r.map (Prod.map (Fn.rename ρ) id)))
      (headsPass file history u next) (headsPass file history u' next))
    (statements : Bind.Abreast
      (Scope.RenamedBehind ρ (fun _ => True) (fun _ => True) (headsPass file history u next).1.2
        (headsPass file history u' next).1.2 (List.map (Stmt.rename ρ)))
      (globalsPass scriptMode file history u next) (globalsPass scriptMode file history u' next))
    (fixes : ρ.Shifts (globalsPass scriptMode file history u next).2.nextId
      (globalsPass scriptMode file history u next).2.nextId
      (entryCount (unitContext scriptMode file u) (globalsPass scriptMode file history u next).1.2
        (!(globalsPass scriptMode file history u next).1.1.isEmpty)))
    (silent : (entryPass scriptMode file history u next).2.Silent) :
    Bind.Abreast (Option.map (Fn.rename ρ) · = ·) (entryPass scriptMode file history u next)
      (entryPass scriptMode file history u' next) := by
  have hasGlobals : (globalsPass scriptMode file history u' next).1.1.isEmpty =
      (globalsPass scriptMode file history u next).1.1.isEmpty := by
    rw [← statements.related.item, List.isEmpty_map]
  unfold entryPass at silent ⊢
  dsimp only at silent ⊢
  rw [hasGlobals, ← heads.related.item]
  refine Bind.Parallel.abreast (entryFn?_renames renamed_unitContext statements.related.scope trivial
    (fun main isMain => ?_) False.elim fixes) statements.next silent statements.silent
  have isDeclared := globalsPass_among main (mem_fns_of_lookupLocal isMain)
  exact find?_exchange headsPass_own (headsPass_declared.shape main isDeclared).1

theorem bodiesPass_exchange {l t : List (Fn × Source.Function)} {p q : Fn × Source.Function}
    (declared : (headsPass file history u next).1.1 = l ++ p :: q :: t)
    (heads : Bind.Abreast (Scope.RenamedBehind ρ (fun _ => True) (fun _ => True)
        (unitScope history next) (unitScope history next)
        fun r => swapAt l.length (r.map (Prod.map (Fn.rename ρ) id)))
      (headsPass file history u next) (headsPass file history u' next))
    (statements : Bind.Abreast
      (Scope.RenamedBehind ρ (fun _ => True) (fun _ => True) (headsPass file history u next).1.2
        (headsPass file history u' next).1.2 (List.map (Stmt.rename ρ)))
      (globalsPass scriptMode file history u next) (globalsPass scriptMode file history u' next))
    (entry : Bind.Abreast (Option.map (Fn.rename ρ) · = ·)
      (entryPass scriptMode file history u next) (entryPass scriptMode file history u' next))
    (exchanges : ρ.Exchanges (entryPass scriptMode file history u next).2.nextId (bodyCounts l)
      p.2.bodyCount q.2.bodyCount (bodyCounts t))
    (silent : (bodiesPass scriptMode file history u next).2.Silent) :
    Bind.Abreast (fun r r' => swapAt l.length (Bodies.rename ρ r) = r')
      (bodiesPass scriptMode file history u next) (bodiesPass scriptMode file history u' next) := by
  have own := @headsPass_own file history u next
  unfold bodiesPass at silent ⊢
  rw [declared] at silent own ⊢
  rw [← heads.related.item, declared]
  exact Bind.Parallel.abreast (functionBodies_exchange renamed_unitContext
    statements.related.scope own exchanges) entry.next silent entry.silent

theorem addEntry_exchange {bodies : Bodies} {entry : Option Fn} {statements : Body} {i : Nat}
    (own : ∀ p ∈ bodies, p.1.builtin = none) (ownEntry : ∀ e, entry = some e → e.builtin = none)
    (within : i + 1 < bodies.length) :
    addEntry (swapAt i (Bodies.rename ρ bodies)) (entry.map (Fn.rename ρ))
        (statements.rename ρ) =
      swapAt i (Bodies.rename ρ (addEntry bodies entry statements)) := by
  cases entry with
  | none => rfl
  | some e =>
    have isOld : (swapAt i (Bodies.rename ρ bodies)).any (·.1.id = (e.rename ρ).id) =
        bodies.any (·.1.id = e.id) := by
      rw [(swapAt_perm _ _).any_eq, Bodies.rename, List.any_map, Bool.eq_iff_iff, List.any_eq_true,
        List.any_eq_true]
      refine exists_congr fun p => and_congr_right fun member => ?_
      simp [Fn.id_rename (own p member), Fn.id_rename (ownEntry e rfl)]
    rw [Option.map_some, addEntry, addEntry, isOld]
    split
    · rfl
    · obtain ⟨before, p, q, behind, rfl, rfl⟩ := exists_neighbours within
      rw [List.append_assoc, List.cons_append, List.cons_append,
        Bodies.rename_neighbours, Bodies.rename_neighbours]
      simp [Bodies.rename]

end Binding

end ScriptLang
