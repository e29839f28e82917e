import Mathlib.Data.List.Nodup
import ScriptLang.Proofs.ActivationRuns
import ScriptLang.Proofs.CompiledWrites

/-! In a chain of units without errors a parameter is written by no statement, a variable that is
declared with `let` by its declaration only, and the variable of a `for` loop by the entry to
the loop and by its step. So between these statements they keep their values, inside one run
and over the later runs of the chain. -/

namespace ScriptLang

namespace Program

variable {known : Var → Prop} {p : Program} {limit : Option Nat} {v : Var}

def EntrySpares (p : Program) (v : Var) : Prop :=
  ∀ entry body, p.entry = some entry → p.body? entry = some body → body.Spares v

variable (isSafe : p.Safe known) (shields : p.Shields v) (isGlobal : v.isGlobal = true)
  (spares : p.EntrySpares v)

include isSafe shields isGlobal spares in
theorem evaluate_keepsGlobal (limit : Option Nat) (fuel : Nat) (globals : Store) (host : Host) :
    (p.evaluate limit fuel globals host).globals.read? v = globals.read? v := by
  have executes : Maintains (fun s => s.globals.read? v = globals.read? v) (p.execute limit fuel) := by
    unfold execute executeWith
    split
    · exact .fault _
    · cases isEntry : p.entry with
      | none => exact .pure _
      | some entry =>
        dsimp only
        cases found : p.body? entry with
        | none => exact .fault _
        | some body =>
          obtain ⟨g, member, _⟩ := mem_of_body? found
          have runs := runFrom_keepsGlobal isSafe shields isGlobal limit fuel member
            (spares entry body isEntry found) 0 (globals.read? v)
          refine .bind (.inFrame runs (fun _ holds => holds) fun _ holds => holds) fun value => ?_
          exact .get_bind fun s => .pure _
  have behind := executes { globals, frames := [], host, last := none } rfl
  unfold evaluate Run.outcome
  cases given : p.execute limit fuel { globals, frames := [], host, last := none } with
  | ok value t =>
    rw [given] at behind
    exact behind
  | error stop t =>
    rw [given] at behind
    exact behind

include isSafe shields isGlobal spares in
/-- At every point of the run, and behind what is done there, the variable has the value with which
the run starts. -/
theorem Reaches.keepsGlobal (unique : ToldApart known) (isKnown : known v) {fuel : Nat}
    {globals : Store} {host : Host} (typed : globals.Typed known) {point : Point}
    (reached : p.Reaches limit fuel globals host point) {s : State}
    (isState : p.StateAt limit point s) : s.globals.read? v = globals.read? v := by
  have never {later : Point} (reached : p.Reaches limit fuel globals host later) :
      ¬later.IsAt (fun s => v ∈ s.written) 0 := by
    obtain ⟨start, ⟨_, entry, body, isEntry, found, rfl⟩, path⟩ := reached
    rintro ⟨depth, code, place, stmt, isRun, get, written⟩
    have some := frames_le path
    have one : later.state.frames.length = 1 := by
      have depth : later.state.frames.length - 1 = 0 := depth
      have some : 1 ≤ later.state.frames.length := some
      omega
    obtain ⟨rfl, _⟩ := sameActivation path one isRun
    exact spares entry code isEntry found stmt (List.mem_of_getElem? get) v written rfl
  have value (t : State) : t.valueIn 0 v = t.globals.read? v := t.valueIn_global isGlobal 0
  have seen : point.Sees v 0 (globals.read? v) := by
    clear isState
    obtain ⟨start, starts, path⟩ := reached
    induction path with
    | refl =>
      have here : p.Reaches limit fuel globals host start := ⟨start, starts, .refl⟩
      obtain ⟨_, entry, body, _, _, rfl⟩ := starts
      have start := value { globals, frames := [.empty], host, last := none }
      exact start ▸ here.sees shields rfl
    | tail path step ih =>
      have taskSafe := (Reaches.safe isSafe unique ⟨start, starts, path⟩ typed).1
      exact LeadsInto.sees isSafe unique shields ih taskSafe (never ⟨start, starts, path⟩) isKnown step
  rw [← value]
  rcases isState with rfl | rfl
  · exact seen.value
  · obtain ⟨taskSafe, typed'⟩ := Reaches.safe isSafe unique reached typed
    refine perform_sees isSafe unique shields isKnown taskSafe typed' seen fun last path => ?_
    obtain ⟨start, starts, before⟩ := reached
    exact never ⟨start, starts, before.trans path⟩

/-- From a return without a value a run does not go on. -/
theorem ends_at_return {n : Nat} {body : Body} {place : Nat} {s : State} {second : Point}
    (isReturn : body[place]? = some (.ret none)) :
    ¬p.LeadsInto limit ⟨n, .run body place, s⟩ second := by
  intro leads
  cases leads with
  | next get given =>
    obtain rfl := Option.some.inj (isReturn.symm.trans get)
    cases given
  | declared get | stands get | tested get | returned get =>
    cases Option.some.inj (isReturn.symm.trans get)

end Program

namespace Stmt

theorem introducedOf_eq_flatMap (ss : List Stmt) : introducedOf ss = ss.flatMap introduced := by
  induction ss with
  | nil => rfl
  | cons s ss ih => simp [introducedOf, ih]

theorem declaredOf_eq_flatMap (ss : List Stmt) : declaredOf ss = ss.flatMap declared := by
  induction ss with
  | nil => rfl
  | cons s ss ih => simp [declaredOf, ih]

theorem loopVarsOf_eq_flatMap (ss : List Stmt) : loopVarsOf ss = ss.flatMap loopVars := by
  induction ss with
  | nil => rfl
  | cons s ss ih => simp [loopVarsOf, ih]

theorem settersOf_eq_flatMap (v : Var) (ss : List Stmt) : settersOf v ss = ss.flatMap (setters v) := by
  induction ss with
  | nil => rfl
  | cons s ss ih => simp [settersOf, ih]

end Stmt

namespace BoundUnit

def statements (b : BoundUnit) : List Stmt := b.bodies.flatMap Prod.snd

def parameters (b : BoundUnit) : List Var := b.bodies.flatMap fun p => p.1.parameters

theorem ownVars_perm (b : BoundUnit) :
    (Binding.ownVars b.bodies).Perm (b.parameters ++ Stmt.introducedOf b.statements) := by
  rw [parameters, statements, Stmt.introducedOf_eq_flatMap, List.flatMap_assoc]
  simp only [← Stmt.introducedOf_eq_flatMap]
  exact (List.flatMap_append_perm b.bodies _ _).symm

end BoundUnit

/-- What is done for each item of one list is a part of what is done for those of another one. -/
theorem sublist_flatMap_of_forall₂ {α β γ : Type} {f : α → List γ} {g : β → List γ} {xs : List α}
    {ys : List β} (parts : List.Forall₂ (fun x y => (g y).Sublist (f x)) xs ys) :
    (ys.flatMap g).Sublist (xs.flatMap f) := by
  induction parts with
  | nil => exact List.Sublist.refl _
  | cons first _ ih => exact first.append ih

namespace Compilation

def writersIn (v : Var) (cs : List Compilation) : List Stmt :=
  cs.flatMap fun c => c.program.bodies.flatMap fun q => writers v q.2

section

variable {options : Options} {us : List Source.Unit} {next : Nat}

theorem boundChain_nodup (options : Options) (us : List Source.Unit) (next : Nat) :
    ((boundChain options us next).flatMap fun b => Binding.ownVars b.bodies).Nodup := by
  obtain ⟨high, minted⟩ := boundAll_minted options [] [] us (.nil (Nat.le_refl next))
  exact List.Nodup.of_map Var.id minted.nodup

/-- The variables that one of the bound units brings along, parameters first. -/
theorem boundChain_perm (options : Options) (us : List Source.Unit) (next : Nat) :
    ((boundChain options us next).flatMap fun b => Binding.ownVars b.bodies).Perm
      ((boundChain options us next).flatMap BoundUnit.parameters ++
        Stmt.introducedOf ((boundChain options us next).flatMap BoundUnit.statements)) := by
  have each := List.Perm.flatMap_left (boundChain options us next)
    fun b (_ : b ∈ boundChain options us next) => b.ownVars_perm
  refine each.trans ((List.flatMap_append_perm _ _ _).symm.trans ?_)
  apply List.Perm.append_left
  simp only [Stmt.introducedOf_eq_flatMap, List.flatMap_assoc]
  exact List.Perm.refl _

theorem chain_compiles (noErrors : ∀ c ∈ (chain options us next).1, c.diagnostics.hasErrors = false)
    {v : Var} (readOnly : v.readOnly = true) {b : BoundUnit}
    (member : b ∈ boundChain options us next) (own : v ∈ Binding.ownVars b.bodies) :
    List.Forall₂ (UnitCompilesTo v) (boundChain options us next) (chain options us next).1 := by
  rw [chain_eq_compileAll] at noErrors ⊢
  exact compileAll_compiles us (List.forall_mem_nil _) noErrors readOnly (.inr ⟨b, member, own⟩)

/-- What writes a read-only variable of a chain comes from its declaration or its loop. -/
theorem writersIn_sublist
    (noErrors : ∀ c ∈ (chain options us next).1, c.diagnostics.hasErrors = false)
    {v : Var} (readOnly : v.readOnly = true) {b : BoundUnit}
    (member : b ∈ boundChain options us next) (own : v ∈ Binding.ownVars b.bodies) :
    (writersIn v (chain options us next).1).Sublist
      (Stmt.settersOf v ((boundChain options us next).flatMap BoundUnit.statements)) := by
  have units := (chain_compiles noErrors readOnly member own).imp fun b c compiled =>
    sublist_flatMap_of_forall₂ (compiled.imp fun p q compiled => compiled.writes)
  have parts := sublist_flatMap_of_forall₂ units
  simp only [Stmt.settersOf_eq_flatMap, BoundUnit.statements, List.flatMap_assoc] at parts ⊢
  exact parts

/-- The writers of a read-only variable: none for a parameter, the declaration for a declared
variable, and the entry and the step of its loop for the variable of a loop. -/
theorem writersIn_readOnly
    (noErrors : ∀ c ∈ (chain options us next).1, c.diagnostics.hasErrors = false)
    {b : BoundUnit} (member : b ∈ boundChain options us next) {p : Fn × Body} (isBody : p ∈ b.bodies)
    {v : Var} (readOnly : v.readOnly = true) :
    (v ∈ p.1.parameters → writersIn v (chain options us next).1 = []) ∧
    (v ∈ Stmt.declaredOf p.2 →
      ∃ e, (writersIn v (chain options us next).1).Sublist [.declare v e]) ∧
    (v ∈ Stmt.loopVarsOf p.2 → ∃ e, (writersIn v (chain options us next).1).Sublist
      [.declare v e, .expr (Expr.increment v)]) := by
  obtain ⟨_, nodup, apart⟩ := List.nodup_append.1
    ((boundChain_perm options us next).nodup_iff.1 (boundChain_nodup options us next))
  have setBy := Stmt.settersOf_setBy v _ nodup
  have within (own : v ∈ Binding.ownVars b.bodies) := writersIn_sublist noErrors readOnly member own
  have ownOf (own : v ∈ p.1.parameters ++ Stmt.introducedOf p.2) : v ∈ Binding.ownVars b.bodies :=
    List.mem_flatMap_of_mem isBody own
  have inBody {f : Stmt → List Var} (own : v ∈ p.2.flatMap f) :
      v ∈ ((boundChain options us next).flatMap BoundUnit.statements).flatMap f := by
    obtain ⟨s, inside, isVar⟩ := List.mem_flatMap.1 own
    exact List.mem_flatMap_of_mem (List.mem_flatMap_of_mem member
      (List.mem_flatMap_of_mem isBody inside)) isVar
  refine ⟨fun isParameter => ?_, fun isDeclared => ?_, fun isLoop => ?_⟩
  · have among : v ∈ (boundChain options us next).flatMap BoundUnit.parameters :=
      List.mem_flatMap_of_mem member (List.mem_flatMap_of_mem isBody isParameter)
    have none := setBy.others fun introduced => apart v among v introduced rfl
    exact List.sublist_nil.1 (none ▸ within (ownOf (List.mem_append_left _ isParameter)))
  · have own := ownOf (List.mem_append_right _ (Stmt.declaredOf_subset_introducedOf p.2 isDeclared))
    rw [Stmt.declaredOf_eq_flatMap] at isDeclared
    obtain ⟨e, equal⟩ := setBy.declared (Stmt.declaredOf_eq_flatMap _ ▸ inBody isDeclared)
    exact ⟨e, equal ▸ within own⟩
  · have own := ownOf (List.mem_append_right _ (Stmt.loopVarsOf_subset_introducedOf p.2 isLoop))
    rw [Stmt.loopVarsOf_eq_flatMap] at isLoop
    obtain ⟨e, equal⟩ := setBy.loop (Stmt.loopVarsOf_eq_flatMap _ ▸ inBody isLoop)
    exact ⟨e, equal ▸ within own⟩

/-- Code that has no writers of a variable spares it. -/
theorem spares_of_writers {known : Var → Prop} (unique : ToldApart known) {v : Var}
    (isKnown : known v) {code : Body} (vars : ∀ s ∈ code, ∀ w ∈ s.vars, known w)
    (none : writers v code = []) : code.Spares v := by
  intro s member w written same
  obtain rfl := unique w v (vars s member w (Stmt.written_subset_vars written)) isKnown same
  exact List.filter_eq_nil_iff.1 none s member (by simpa using written)

theorem nodup_introducedOf {b : BoundUnit} (member : b ∈ boundChain options us next)
    {p : Fn × Body} (isBody : p ∈ b.bodies) : (Stmt.introducedOf p.2).Nodup := by
  have unit := (List.nodup_flatMap.1 (boundChain_nodup options us next)).1 b member
  exact (List.nodup_append.1 ((List.nodup_flatMap.1 unit).1 p isBody)).2.1

section

variable {known : Var → Prop} (unique : ToldApart known)
  (safe : ∀ c ∈ (chain options us next).1, c.Safe known)
  (knows : ∀ b ∈ boundChain options us next, ∀ v, Binding.unitVars b v → known v)
  (noErrors : ∀ c ∈ (chain options us next).1, c.diagnostics.hasErrors = false)
  {v : Var} (readOnly : v.readOnly = true) {b : BoundUnit}
  (member : b ∈ boundChain options us next) (own : v ∈ Binding.ownVars b.bodies)

include knows member own in
theorem known_of_own : known v := by
  obtain ⟨p, isBody, isVar⟩ := List.mem_flatMap.1 own
  refine knows b member v (.inl ⟨p, isBody, ?_⟩)
  rcases List.mem_append.1 isVar with isParameter | introduced
  · exact .inr isParameter
  · exact .inl (Stmt.introducedOf_subset_varsOf p.2 introduced)

include unique safe knows noErrors readOnly member own in
/-- The programs of a chain shield the read-only variables of its units. -/
theorem shields_of_own {c : Compilation} (unit : c ∈ (chain options us next).1) :
    c.program.Shields v := by
  have declares := boundAll_declares options [] [] us next (List.forall_mem_nil _)
  have bodies : ∀ c ∈ (chain options us next).1, ∀ q ∈ c.program.bodies,
      CallsOnly Fn.Declared q.2 ∧
        (v.isGlobal = true → q.1.declaration.isSome = true → q.2.Spares v) := by
    intro c unit q isBody
    obtain ⟨b', member', compiled⟩ :=
      exists_of_forall₂ (chain_compiles noErrors readOnly member own) unit
    obtain ⟨p, isBody', same, writes, calls⟩ := exists_of_forall₂ compiled isBody
    have declares := declares b' member'
    refine ⟨fun s within f called => declares.calls p isBody' f (calls s within f called),
      fun isGlobal declared => ?_⟩
    have isLocal := declares.locals p isBody' (same ▸ declared)
    have others := (Stmt.settersOf_setBy v p.2 (nodup_introducedOf member' isBody')).others
      fun introduced => by simp [isLocal v introduced] at isGlobal
    have fnSafe := (safe c unit).program.bodies q (List.mem_append_left _ isBody)
    exact spares_of_writers unique (known_of_own knows member own)
      (fun s within => (fnSafe.body.statements s within).vars) (List.sublist_nil.1 (others ▸ writes))
  rw [chain_eq_compileAll] at bodies unit
  have units := forall_mem_units options [] [] us next (List.forall_mem_nil _) bodies c unit
  exact ⟨fun q within => (units q within).1, fun isGlobal q within => (units q within).2 isGlobal⟩

include unique safe knows member own in
/-- A unit does not write the variables of another one. -/
theorem entrySpares_of_own {b' : BoundUnit} {c : Compilation}
    (unit : c ∈ (chain options us next).1) (compiled : UnitCompilesTo v b' c)
    (member' : b' ∈ boundChain options us next) (other : v ∉ Binding.ownVars b'.bodies) :
    c.program.EntrySpares v := by
  intro entry body isEntry found
  obtain ⟨g, _, isBody⟩ := entry_within unit isEntry found
  obtain ⟨p, isBody', same, writes, _⟩ := exists_of_forall₂ compiled isBody
  have others := (Stmt.settersOf_setBy v p.2 (nodup_introducedOf member' isBody')).others
    fun introduced => other (List.mem_flatMap_of_mem isBody' (List.mem_append_right _ introduced))
  have fnSafe := (safe c unit).program.bodies _ (List.mem_append_left _ isBody)
  exact spares_of_writers unique (known_of_own knows member own)
    (fun s within => (fnSafe.body.statements s within).vars) (List.sublist_nil.1 (others ▸ writes))

include unique safe knows noErrors readOnly member own in
/-- The units behind the one that brings the variable along do not write it. -/
theorem entrySpares_behind {before after : List Compilation} {c : Compilation}
    (split : (chain options us next).1 = before ++ c :: after)
    (unit : (boundChain options us next)[before.length]? = some b) :
    ∀ d ∈ after, d.program.EntrySpares v := by
  have compiles := chain_compiles noErrors readOnly member own
  have nodup := boundChain_nodup options us next
  rw [split] at compiles
  have here := List.forall₂_drop_append _ _ _ compiles
  have sublist := List.drop_sublist before.length (boundChain options us next)
  have head : ((boundChain options us next).drop before.length)[0]? = some b := by
    rw [List.getElem?_drop]
    exact unit
  generalize (boundChain options us next).drop before.length = bound at here sublist head
  cases here with
  | @cons b' _ rest _ _ later =>
    obtain rfl : b' = b := Option.some.inj head
    intro d member'
    obtain ⟨b'', among, compiled⟩ := exists_of_forall₂ later member'
    have apart := (List.pairwise_cons.1 (List.nodup_flatMap.1 nodup |>.2.sublist sublist)).1 b'' among
    have isUnit : d ∈ (chain options us next).1 := by
      rw [split]
      exact List.mem_append_right _ (List.mem_cons_of_mem c member')
    exact entrySpares_of_own unique safe knows member own isUnit compiled
      (sublist.subset (List.mem_cons_of_mem b' among)) fun other => apart own other

end

end

/-- The globals and the host that compilations leave when they are run in a row. -/
def leave (fuel : Nat) (globals : Store) (host : Host) : List Compilation → Store × Host
  | [] => (globals, host)
  | c :: cs =>
    let out := c.evaluate fuel globals host
    leave fuel out.globals out.host cs

section

variable {known : Var → Prop} (unique : ToldApart known) {cs : List Compilation}
  (safe : ∀ c ∈ cs, c.Safe known) {globals : Store} (typed : globals.Typed known)

include unique safe typed

theorem leave_typed (fuel : Nat) (host : Host) : (leave fuel globals host cs).1.Typed known := by
  induction cs generalizing globals host with
  | nil => exact typed
  | cons c cs ih =>
    obtain ⟨first, rest⟩ := List.forall_mem_cons.1 safe
    exact ih rest (evaluate_keeps first unique typed fuel host).1 _

/-- Compilations that do not write a global variable leave it at its value while they run in a
row. -/
theorem Reaches.keepsGlobal {v : Var} (isKnown : known v) (isGlobal : v.isGlobal = true)
    (shields : ∀ c ∈ cs, c.program.Shields v) (spares : ∀ c ∈ cs, c.program.EntrySpares v)
    {fuel : Nat} {c : Compilation} {point : Point} {host : Host}
    (reached : Reaches fuel c point globals host cs) {s : State}
    (isState : c.program.StateAt c.options.maxCallDepth point s) :
    s.globals.read? v = globals.read? v := by
  induction reached with
  | here reached =>
    have isSafe := (safe _ List.mem_cons_self).program
    have isShielded := shields _ List.mem_cons_self
    exact reached.keepsGlobal isSafe isShielded isGlobal (spares _ List.mem_cons_self) unique isKnown
      typed isState
  | @later globals host d cs _ ih =>
    obtain ⟨first, rest⟩ := List.forall_mem_cons.1 safe
    obtain ⟨shielded, shields⟩ := List.forall_mem_cons.1 shields
    obtain ⟨spared, spares⟩ := List.forall_mem_cons.1 spares
    refine (ih rest (evaluate_keeps first unique typed fuel _).1 shields spares).trans ?_
    exact Program.evaluate_keepsGlobal first.program shielded isGlobal spared _ fuel globals host

end

/-- When the entry function is about to go on and will not write the variable any more, the run
leaves the value that the variable has now. -/
theorem evaluate_settled {known : Var → Prop} (unique : ToldApart known) {c : Compilation}
    (safe : c.Safe known) {v : Var} (shields : c.program.Shields v) (isKnown : known v)
    (isGlobal : v.isGlobal = true) {fuel : Nat} {globals : Store} {host : Host}
    (typed : globals.Typed known) {first : Point}
    (reached : c.program.Reaches c.options.maxCallDepth fuel globals host first)
    {body : Body} {place : Nat} (isRun : first.task = .run body place) (isEntry : first.callers = 0)
    (never : ∀ last, Relation.ReflTransGen (c.program.LeadsInto c.options.maxCallDepth) first last →
      ¬last.IsAt (fun s => v ∈ s.written) 0) :
    (c.evaluate fuel globals host).globals.read? v = first.state.globals.read? v := by
  obtain ⟨taskSafe, typed'⟩ := Program.Reaches.safe safe.program unique reached typed
  have seen := reached.sees shields isRun
  rw [isEntry] at seen
  have behind := Program.perform_sees safe.program unique shields isKnown taskSafe typed' seen never
  rw [State.valueIn_global _ isGlobal, State.valueIn_global _ isGlobal] at behind
  have some := reached.frames_pos
  obtain ⟨start, starts, path⟩ := reached
  have leaves := (Program.evaluate_of_startsAt starts c.options.maxCallDepth).1
  obtain ⟨_, entry, code, _, _, rfl⟩ := starts
  have depth : first.state.frames.length = 1 := by
    have isEntry : first.state.frames.length - 1 = 0 := isEntry
    omega
  obtain ⟨_, same⟩ := Program.sameActivation path depth isRun
  rw [same] at behind
  exact (congrArg (fun s => Store.read? s v) leaves).trans behind

/-- The parameters of a function, and what is declared with `let` or counts a loop in its body. -/
def readOnlyVars (p : Fn × Body) : List Var :=
  p.1.parameters ++ (Stmt.declaredOf p.2).filter Var.readOnly ++ Stmt.loopVarsOf p.2

theorem of_mem_readOnlyVars {b : BoundUnit} (declares : Binding.UnitDeclares b) {p : Fn × Body}
    (isBody : p ∈ b.bodies) {v : Var} (isVar : v ∈ readOnlyVars p) :
    v.readOnly = true ∧ v ∈ Binding.ownVars b.bodies := by
  unfold readOnlyVars at isVar
  rcases List.mem_append.1 isVar with isVar | isLoop
  · rcases List.mem_append.1 isVar with isParameter | isDeclared
    · exact ⟨declares.parameters p isBody v isParameter,
        List.mem_flatMap_of_mem isBody (List.mem_append_left _ isParameter)⟩
    · obtain ⟨isDeclared, readOnly⟩ := List.mem_filter.1 isDeclared
      have introduced := Stmt.declaredOf_subset_introducedOf p.2 isDeclared
      exact ⟨readOnly, List.mem_flatMap_of_mem isBody (List.mem_append_right _ introduced)⟩
  · have introduced := Stmt.loopVarsOf_subset_introducedOf p.2 isLoop
    exact ⟨declares.loops p isBody v isLoop,
      List.mem_flatMap_of_mem isBody (List.mem_append_right _ introduced)⟩

/-- Of all statements of a chain without errors none writes a parameter, only its declaration
writes a variable declared with `let`, and only the entry and the step of its loop write the
variable of a loop. Inside one activation such a variable has one value from any place on until
the activation is about to run one of these statements. If it is global, then behind the last of
these statements it has one value for the rest of this evaluation and in all later ones. -/
theorem chain_keeps_readOnly (options : Options) (us : List Source.Unit) (next : Nat)
    (noErrors : ∀ c ∈ (chain options us next).1, c.diagnostics.hasErrors = false) (fuel : Nat)
    (host : Host) {b : BoundUnit} (member : b ∈ boundChain options us next) {p : Fn × Body}
    (isBody : p ∈ b.bodies) {v : Var} (isVar : v ∈ readOnlyVars p) :
    ((v ∈ p.1.parameters → writersIn v (chain options us next).1 = []) ∧
      (v ∈ Stmt.declaredOf p.2 →
        ∃ e, (writersIn v (chain options us next).1).Sublist [.declare v e]) ∧
      (v ∈ Stmt.loopVarsOf p.2 → ∃ e, (writersIn v (chain options us next).1).Sublist
        [.declare v e, .expr (Expr.increment v)])) ∧
    (∀ c first body place, Reaches fuel c first .empty host (chain options us next).1 →
      first.task = .run body place →
      ∀ s, c.program.StateUntil c.options.maxCallDepth (fun s => v ∈ s.written) first s →
        s.valueIn first.callers v = first.state.valueIn first.callers v) ∧
    (v.isGlobal = true → ∀ before c after,
      (chain options us next).1 = before ++ c :: after →
      (boundChain options us next)[before.length]? = some b →
      ∀ first body place,
        c.program.Reaches c.options.maxCallDepth fuel (leave fuel .empty host before).1
          (leave fuel .empty host before).2 first →
        first.task = .run body place → first.callers = 0 →
        (∀ last, Relation.ReflTransGen (c.program.LeadsInto c.options.maxCallDepth) first last →
          ¬last.IsAt (fun s => v ∈ s.written) 0) →
        let out := c.evaluate fuel (leave fuel .empty host before).1 (leave fuel .empty host before).2
        out.globals.read? v = first.state.globals.read? v ∧
        ∀ d point, Reaches fuel d point out.globals out.host after →
          ∀ s, d.program.StateAt d.options.maxCallDepth point s →
            s.globals.read? v = first.state.globals.read? v) := by
  have declares := boundAll_declares options [] [] us next (List.forall_mem_nil _) b member
  obtain ⟨readOnly, own⟩ := of_mem_readOnlyVars declares isBody isVar
  have noErrors' := noErrors
  rw [chain_eq_compileAll] at noErrors'
  obtain ⟨known, _, unique, safe, knows⟩ := compileAll_safe options us (Linked.start next) noErrors'
  rw [← chain_eq_compileAll] at safe
  have isKnown := known_of_own knows member own
  have shields {c : Compilation} (unit : c ∈ (chain options us next).1) : c.program.Shields v :=
    shields_of_own unique safe knows noErrors readOnly member own unit
  refine ⟨writersIn_readOnly noErrors member isBody readOnly, ?_, ?_⟩
  · intro c first body place reached isRun s isState
    obtain ⟨unit, globals', host', inside⟩ := reached.within
    obtain ⟨cSafe, taskSafe, typed⟩ := reached.safe safe unique .empty
    exact isState.valueIn_eq cSafe.program unique (shields unit) isKnown taskSafe typed
      (inside.sees (shields unit) isRun)
  · intro isGlobal before c after split unit first body place reached isRun isEntry never
    have among : ∀ d ∈ before ++ c :: after, d ∈ (chain options us next).1 := split ▸ fun _ => id
    obtain ⟨amongBefore, amongRest⟩ := List.forall_mem_append.1 among
    obtain ⟨here, amongAfter⟩ := List.forall_mem_cons.1 amongRest
    have typed := leave_typed unique (fun d within => safe d (amongBefore d within)) .empty fuel host
    have settled := evaluate_settled unique (safe c here) (shields here) isKnown isGlobal typed
      reached isRun isEntry never
    refine ⟨settled, fun d point reached' s isState => ?_⟩
    have typed' := (evaluate_keeps (safe c here) unique typed fuel (leave fuel .empty host before).2).1
    have kept := reached'.keepsGlobal unique (fun d within => safe d (amongAfter d within)) typed'
      isKnown isGlobal (fun d within => shields (amongAfter d within))
      (entrySpares_behind unique safe knows noErrors readOnly member own split unit) isState
    exact kept.trans settled

end Compilation

namespace ScaledBase

open Source

def first : Source.Unit := (Sketch.Unit.place ⟨none, [
  .statement (.declare .letKeyword "base" none (.literal (.int 2)))]⟩ .start).1

def second : Source.Unit := (Sketch.Unit.place ⟨none, [
  .function ⟨"scaled", [("n", "int")], some "int",
    [.ret (some (.binary (.name "n") .star (.name "base")))]⟩,
  .statement (.expr (.call "print" [.call "scaled" [.name "base"]]))]⟩ .start).1

def early : Compilation × Nat := Compilation.compile .standard first 0

def late : Compilation × Nat := early.1.continueWith second early.2

def body : Body := (early.1.program.entry.bind early.1.program.body?).getD []

def initial : State := { globals := .empty, frames := [.empty], host := .empty, last := none }

def callee : Invoke := early.1.program.callee early.1.options.maxCallDepth 99

def declares : Answer Next := Run.stmt callee body true 0 (body[0]?.getD (.ret none)) initial

def declared : Point := ⟨99, .run body 1, declares.state⟩

def start : Point :=
  let before := early.1.evaluate 100 .empty .empty
  ⟨100, .run ((late.1.program.entry.bind late.1.program.body?).getD []) 0,
    { globals := before.globals, frames := [.empty], host := before.host, last := none }⟩

def final : State :=
  Answer.state (late.1.program.perform late.1.options.maxCallDepth start.fuel start.task start.state)

def endsThere : Option Stmt → Option Stmt → Bool
  | some _, some (.ret none) => true
  | _, _ => false

theorem of_endsThere {s t : Option Stmt} (ends : endsThere s t = true) :
    (∃ stmt, s = some stmt) ∧ t = some (.ret none) := by
  unfold endsThere at ends
  split at ends
  · exact ⟨⟨_, rfl⟩, rfl⟩
  · contradiction

theorem chain_eq : (Compilation.chain .standard [first, second] 0).1 = [early.1, late.1] :=
  Compilation.chain_pair .standard first second 0

theorem reaches_declared :
    early.1.program.Reaches early.1.options.maxCallDepth 100 .empty .empty declared ∧
      ∀ last, Relation.ReflTransGen (early.1.program.LeadsInto early.1.options.maxCallDepth)
        declared last →
        ∀ v, ¬last.IsAt (fun s => v ∈ s.written) 0 := by
  have ends : endsThere body[0]? body[1]? = true := by decide +kernel
  obtain ⟨⟨stmt, get⟩, isReturn⟩ := of_endsThere ends
  have goes : Answer.value? declares = some (.goto 1) := by decide +kernel
  have starts : early.1.program.StartsAt 100 .empty .empty ⟨100, .run body 0, initial⟩ :=
    Program.startsAt (by decide +kernel) (by decide +kernel) 100 .empty .empty
  have step : early.1.program.LeadsInto early.1.options.maxCallDepth
      ⟨100, .run body 0, initial⟩ declared := by
    have same : declares = Run.stmt callee body true 0 stmt initial := by
      unfold declares
      rw [get]
      rfl
    exact .next get (same.symm.trans (Answer.ok_of_value? goes))
  refine ⟨⟨_, starts, .single step⟩, fun last path v => ?_⟩
  rcases Relation.ReflTransGen.cases_head path with rfl | ⟨second, step, _⟩
  · rintro ⟨_, _, _, s, isRun, here, written⟩
    obtain ⟨rfl, rfl⟩ := Task.run.inj isRun
    obtain rfl := Option.some.inj (isReturn.symm.trans here)
    exact List.not_mem_nil written
  · exact absurd step (Program.ends_at_return isReturn)

theorem reaches_start :
    Compilation.Reaches 100 late.1 start (early.1.evaluate 100 .empty .empty).globals
      (early.1.evaluate 100 .empty .empty).host [late.1] := by
  have starts := Program.startsAt (p := late.1.program) (by decide +kernel) (by decide +kernel)
    100 (early.1.evaluate 100 .empty .empty).globals (early.1.evaluate 100 .empty .empty).host
  exact .here ⟨start, starts, .refl⟩

end ScaledBase

/-- The second unit leaves the value that the first one has given to `base`, and no statement but
the declaration writes it. -/
theorem scaledBase_keeps_base :
    ∃ b ∈ Compilation.boundChain .standard [ScaledBase.first, ScaledBase.second] 0,
      ∃ p ∈ b.bodies, ∃ v ∈ Compilation.readOnlyVars p, v.name = "base" ∧
        ScaledBase.declared.state.globals.read? v = some (.int 2) ∧
        (∃ e, (Compilation.writersIn v
          (Compilation.chain .standard [ScaledBase.first, ScaledBase.second] 0).1).Sublist
            [.declare v e]) ∧
        ScaledBase.final.globals.read? v = some (.int 2) := by
  have noErrors : ∀ c ∈ (Compilation.chain .standard [ScaledBase.first, ScaledBase.second] 0).1,
      c.diagnostics.hasErrors = false := by decide +kernel
  have isEntry : ScaledBase.declared.callers = 0 := by decide +kernel
  have found : ∃ b ∈
      (Compilation.boundChain .standard [ScaledBase.first, ScaledBase.second] 0)[0]?,
      ∃ p ∈ b.bodies, ∃ v ∈ Compilation.readOnlyVars p, v.name = "base" ∧ v.isGlobal = true ∧
        v ∈ Stmt.declaredOf p.2 ∧
        ScaledBase.declared.state.globals.read? v = some (.int 2) := by decide +kernel
  obtain ⟨b, unit, p, isBody, v, isVar, named, isGlobal, isDeclared, value⟩ := found
  have member := List.mem_of_getElem? unit
  obtain ⟨reached, never⟩ := ScaledBase.reaches_declared
  obtain ⟨⟨_, writers, _⟩, _, kept⟩ := Compilation.chain_keeps_readOnly .standard
    [ScaledBase.first, ScaledBase.second] 0 noErrors 100 .empty member isBody isVar
  obtain ⟨_, later⟩ := kept isGlobal [] ScaledBase.early.1 [ScaledBase.late.1] ScaledBase.chain_eq
    unit ScaledBase.declared ScaledBase.body 1 reached rfl isEntry fun last path => never last path v
  have final := later ScaledBase.late.1 ScaledBase.start ScaledBase.reaches_start ScaledBase.final
    (.inr rfl)
  exact ⟨b, member, p, isBody, v, isVar, named, value, writers isDeclared, final.trans value⟩

end ScriptLang
