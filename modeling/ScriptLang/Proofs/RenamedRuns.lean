import ScriptLang.Proofs.CompiledWrites
import ScriptLang.Proofs.FlatRun
import ScriptLang.Proofs.Renaming

/-! Programs whose code is the same but for the numbers of symbols run side by side: variables have the
same values under their numbers, the same is printed and read, and a fault is the same one. If the
names of variables differ as well, then so does the one in a fault. The second run may have more
fuel; then nothing is said of it where the first one lacks some. -/

namespace ScriptLang

def Store.Renumbered (number : Nat → Nat) (s t : Store) : Prop :=
  ∀ id, t.get? (number id) = s.get? id

structure State.Renamed (κ : Relabelling) (withLast : Prop) (s t : State) : Prop where
  globals : s.globals.Renumbered κ.own t.globals
  frames : List.Forall₂ (Store.Renumbered κ.own) s.frames t.frames
  host : t.host = s.host
  last : withLast → t.last = s.last

section

variable {κ : Relabelling} {withLast : Prop}

theorem Store.Renumbered.write {s t : Store} (renumbered : s.Renumbered κ.own t) (v : Var)
    (value : Value) : (s.write v value).Renumbered κ.own (t.write (v.rename κ) value) := by
  intro id
  simp only [Store.write, OrderedMap.get?_insert, Var.id_rename, Renaming.own_eq_iff, renumbered id]

theorem Store.Renumbered.empty {number : Nat → Nat} :
    Store.Renumbered number OrderedMap.empty OrderedMap.empty := fun _ => rfl

theorem Store.Renumbered.same {ρ : Renaming} {next : Nat} {globals : Store}
    (fixes : ∀ id < next, ρ.own id = id)
    (known : ∀ id ∈ globals.keys, id < next) : globals.Renumbered ρ.own globals := by
  intro id
  by_cases old : id < next
  · rw [fixes id old]
  · have new (other : Nat) (le : next ≤ other) : globals.get? other = none :=
      OrderedMap.get?_eq_none_iff.2 fun member => Nat.not_lt.2 le (known other member)
    have later : next ≤ ρ.own id := by
      by_contra earlier
      have bound : ρ.own id < next := Nat.lt_of_not_le earlier
      exact old (ρ.injective (fixes _ bound) ▸ bound)
    rw [new id (Nat.le_of_not_lt old), new _ later]

theorem Store.ofArguments_renumbered (ps : List Var) (args : List Value) :
    (Store.ofArguments ps args).Renumbered κ.own
      (Store.ofArguments (ps.map (Var.rename κ)) args) := by
  unfold Store.ofArguments
  rw [List.zip_map_left, List.foldl_map]
  exact List.foldl_rel .empty fun pair _ s t renumbered => renumbered.write pair.1 pair.2

namespace State.Renamed

variable {s t : State}

theorem write (renamed : s.Renamed κ withLast t) (v : Var) (value : Value) :
    (s.write v value).Renamed κ withLast (t.write (v.rename κ) value) := by
  unfold State.write
  rw [Var.isGlobal_rename]
  split
  · exact { renamed with globals := renamed.globals.write v value }
  · have frames := renamed.frames
    cases first : s.frames with
    | nil =>
      rw [first] at frames
      rw [List.forall₂_nil_left_iff.1 frames]
      exact renamed
    | cons f fs =>
      rw [first] at frames
      obtain ⟨g, gs, top, rest, second⟩ := List.forall₂_cons_left_iff.1 frames
      rw [second]
      exact { renamed with frames := .cons (top.write v value) rest }

theorem read? (renamed : s.Renamed κ withLast t) (v : Var) : t.read? (v.rename κ) = s.read? v := by
  unfold State.read?
  rw [Var.isGlobal_rename]
  split
  · exact renamed.globals v.id
  · have frames := renamed.frames
    cases first : s.frames with
    | nil =>
      rw [first] at frames
      rw [List.forall₂_nil_left_iff.1 frames]
      rfl
    | cons f fs =>
      rw [first] at frames
      obtain ⟨g, gs, top, _, second⟩ := List.forall₂_cons_left_iff.1 frames
      rw [second]
      exact top v.id

theorem inEntry (renamed : s.Renamed κ withLast t) : t.inEntry = s.inEntry := by
  have frames := renamed.frames
  unfold State.inEntry
  generalize s.frames = fs, t.frames = gs at frames ⊢
  cases frames with
  | nil => rfl
  | cons _ rest => cases rest <;> rfl

theorem reached? (renamed : s.Renamed κ withLast t) (limit : Option Nat) :
    t.reached? limit = s.reached? limit := by
  unfold State.reached?
  rw [renamed.frames.length_eq]

theorem enter (renamed : s.Renamed κ withLast t) {f g : Store} (frame : f.Renumbered κ.own g) :
    { s with frames := f :: s.frames }.Renamed κ withLast { t with frames := g :: t.frames } :=
  { renamed with frames := .cons frame renamed.frames }

theorem leave (renamed : s.Renamed κ withLast t) :
    { s with frames := s.frames.tail }.Renamed κ withLast { t with frames := t.frames.tail } := by
  refine { renamed with frames := ?_ }
  have frames := renamed.frames
  generalize s.frames = fs, t.frames = gs at frames ⊢
  cases frames with
  | nil => exact .nil
  | cons _ rest => exact rest

end State.Renamed

end

def Fault.relabel (label : String → String) : Fault → Fault
  | .defect (.unassigned name) => .defect (.unassigned (label name))
  | f => f

def Stop.relabel (label : String → String) : Stop → Stop
  | .fault f => .fault (f.relabel label)
  | .outOfFuel => .outOfFuel

/-- The answers are the same but for the numbers of variables, unless the first one lacks fuel and
the second one may have more. -/
inductive Answer.Renamed {α β : Type} (κ : Relabelling) (withLast loose : Prop) (R : α → β → Prop) :
    Answer α → Answer β → Prop
  | ok {a : α} {b : β} {s t : State} (related : R a b) (states : s.Renamed κ withLast t) :
    Renamed κ withLast loose R (.ok a s) (.ok b t)
  | error {s t : State} (stop : Stop) (states : s.Renamed κ withLast t) :
    Renamed κ withLast loose R (.error stop s) (.error (stop.relabel κ.label) t)
  | starved {s : State} {answer : Answer β} (isLoose : loose) :
    Renamed κ withLast loose R (.error .outOfFuel s) answer

def Run.Renamed {α β : Type} (κ : Relabelling) (withLast loose : Prop) (R : α → β → Prop) (x : Run α)
    (y : Run β) : Prop :=
  ∀ s t : State, s.Renamed κ withLast t → Answer.Renamed κ withLast loose R (x s) (y t)

section

variable {κ : Relabelling} {withLast loose : Prop}

namespace Run.Renamed

variable {α β γ δ : Type} {R : α → β → Prop} {Q : γ → δ → Prop}

theorem pure {a : α} {b : β} (related : R a b) :
    Run.Renamed κ withLast loose R (Pure.pure a) (Pure.pure b) := fun _ _ => .ok related

theorem fault (f : Fault) :
    Run.Renamed κ withLast loose R (Run.fault f) (Run.fault (f.relabel κ.label)) :=
  fun _ _ => .error (.fault f)

theorem ofExcept (result : Except OperatorFault α) :
    Run.Renamed κ withLast loose Eq (Run.ofExcept result) (Run.ofExcept result) := by
  cases result with
  | ok a => exact pure rfl
  | error e => cases e <;> exact fault _

theorem bind {x : Run α} {y : Run β} {f : α → Run γ} {g : β → Run δ}
    (first : Run.Renamed κ withLast loose R x y)
    (second : ∀ a b, R a b → Run.Renamed κ withLast loose Q (f a) (g b)) :
    Run.Renamed κ withLast loose Q (x >>= f) (y >>= g) := by
  intro s t renamed
  have head := first s t renamed
  cases given : x s with
  | ok a s' =>
    rw [given] at head
    rw [Run.bind_of_ok f given]
    generalize given' : y t = answer at head
    obtain ⟨related, renamed'⟩ := head
    rw [Run.bind_of_ok g given']
    exact second _ _ related _ _ renamed'
  | error stop s' =>
    rw [given] at head
    rw [Run.bind_of_error f given]
    generalize given' : y t = answer at head
    cases head with
    | error _ renamed' =>
      rw [Run.bind_of_error g given']
      exact .error stop renamed'
    | starved isLoose => exact .starved isLoose

theorem get_bind {f : State → Run γ} {g : State → Run δ}
    (second : ∀ s t : State, s.Renamed κ withLast t →
      Answer.Renamed κ withLast loose Q (f s s) (g t t)) :
    Run.Renamed κ withLast loose Q (get >>= f) (get >>= g) := by
  intro s t renamed
  rw [Run.bind_of_ok f (Run.get_apply s), Run.bind_of_ok g (Run.get_apply t)]
  exact second s t renamed

theorem modify {f g : State → State}
    (keeps : ∀ s t : State, s.Renamed κ withLast t → (f s).Renamed κ withLast (g t)) :
    Run.Renamed κ withLast loose (fun _ _ => True) (modify f : Run PUnit)
      (modify g : Run PUnit) := fun s t renamed => .ok trivial (keeps s t renamed)

theorem write (v : Var) (value : Value) :
    Run.Renamed κ withLast loose (fun _ _ => True) (Run.write v value)
      (Run.write (v.rename κ) value) := modify fun _ _ renamed => renamed.write v value

theorem read (v : Var) :
    Run.Renamed κ withLast loose Eq (Run.read v) (Run.read (v.rename κ)) := by
  intro s t renamed
  rw [Run.read_apply, Run.read_apply, renamed.read?]
  cases s.read? v with
  | none => exact .error _ renamed
  | some value => exact .ok rfl renamed

theorem inFrame {x : Run α} {y : Run β} {f g : Store} (frame : f.Renumbered κ.own g)
    (inner : Run.Renamed κ withLast loose R x y) :
    Run.Renamed κ withLast loose R (Run.inFrame f x) (Run.inFrame g y) := by
  intro s t renamed
  have inside := inner _ _ (renamed.enter frame)
  rw [Run.inFrame_apply, Run.inFrame_apply]
  generalize x { s with frames := f :: s.frames } = first at inside ⊢
  generalize y { t with frames := g :: t.frames } = second at inside ⊢
  cases inside with
  | ok related renamed' => exact .ok related renamed'.leave
  | error stop renamed' => exact .error stop renamed'.leave
  | starved isLoose => exact .starved isLoose

end Run.Renamed

theorem Builtin.run_renames (b : Builtin) (args : List Value) :
    Run.Renamed κ withLast loose Eq (b.run args) (b.run args) := by
  have leave (host : Host) (value : Option Value) : Run.Renamed κ withLast loose Eq
      (do
        modify fun s => { s with host := host }
        return value)
      (do
        modify fun s => { s with host := host }
        return value) :=
    .bind (.modify fun s t renamed => { renamed with host := rfl }) fun _ _ _ => .pure rfl
  unfold Builtin.run
  split
  · exact .bind (.modify fun s t renamed => { renamed with host := by rw [renamed.host] })
      fun _ _ _ => .pure rfl
  · refine .get_bind fun s t renamed => ?_
    rw [renamed.host]
    cases s.host.readLine? with
    | none => exact .error _ renamed
    | some r => exact leave r.2 _ s t renamed
  · refine .get_bind fun s t renamed => ?_
    rw [renamed.host]
    exact leave _ _ s t renamed
  · exact .fault _

variable {invoke invoke' : Invoke}

def CallsRenamed (κ : Relabelling) (withLast loose : Prop) (invoke invoke' : Invoke) (fs : List Fn) :
    Prop :=
  ∀ f ∈ fs, f.builtin = none → ∀ args,
    Run.Renamed κ withLast loose Eq (invoke f args) (invoke' (f.rename κ) args)

theorem Fn.apply_renames {f : Fn} {fs : List Fn} (member : f ∈ fs)
    (calls : CallsRenamed κ withLast loose invoke invoke' fs) (args : List Value) :
    Run.Renamed κ withLast loose Eq (f.apply invoke args) ((f.rename κ).apply invoke' args) := by
  unfold Fn.apply
  rw [Fn.builtin_rename]
  cases own : f.builtin with
  | none => exact calls f member own args
  | some b => exact b.run_renames args

theorem CallsRenamed.of_append {fs gs : List Fn}
    (calls : CallsRenamed κ withLast loose invoke invoke' (fs ++ gs)) :
    CallsRenamed κ withLast loose invoke invoke' fs ∧
      CallsRenamed κ withLast loose invoke invoke' gs := List.forall_mem_append.1 calls

namespace Expr

mutual

theorem eval_renames (e : Expr) (calls : CallsRenamed κ withLast loose invoke invoke' e.calls) :
    Run.Renamed κ withLast loose Eq (e.eval invoke) ((e.rename κ).eval invoke') := by
  cases e with
  | error | range => exact .fault _
  | literal value => exact .pure rfl
  | var v =>
    simp only [rename, eval, Var.constant_rename]
    cases v.constant with
    | some value => exact .pure rfl
    | none => exact .read v
  | assign v e =>
    refine (eval_renames e calls).bind ?_
    rintro value _ rfl
    exact .bind (.write v value) fun _ _ _ => .pure rfl
  | unary op e =>
    have same : (unary op (e.rename κ)).constant? = (unary op e).constant? :=
      constant?_rename (unary op e)
    simp only [rename, eval, same]
    cases (unary op e).constant? with
    | some value => exact .pure rfl
    | none =>
      refine (eval_renames e calls).bind ?_
      rintro value _ rfl
      exact .ofExcept _
  | binary l op r =>
    obtain ⟨callsL, callsR⟩ := CallsRenamed.of_append calls
    have same : (binary (l.rename κ) op (r.rename κ)).constant? = (binary l op r).constant? :=
      constant?_rename (binary l op r)
    simp only [rename, eval, same]
    cases (binary l op r).constant? with
    | some value => exact .pure rfl
    | none =>
      refine (eval_renames l callsL).bind ?_
      rintro left _ rfl
      cases op.action.shortCircuit? left with
      | some b => exact .pure rfl
      | none =>
        refine (eval_renames r callsR).bind ?_
        rintro right _ rfl
        exact .ofExcept _
  | call f es =>
    have arguments : CallsRenamed κ withLast loose invoke invoke' (callsOf es) :=
      fun g within => calls g (List.mem_cons_of_mem f within)
    refine (evalArgs_renames es arguments).bind ?_
    rintro values _ rfl
    refine (Fn.apply_renames List.mem_cons_self calls values).bind ?_
    rintro result _ rfl
    cases result with
    | some value => exact .pure rfl
    | none => exact .fault _
  | convert t e =>
    have same : (convert t (e.rename κ)).constant? = (convert t e).constant? :=
      constant?_rename (convert t e)
    simp only [rename, eval, same]
    cases (convert t e).constant? with
    | some value => exact .pure rfl
    | none =>
      refine (eval_renames e calls).bind ?_
      rintro value _ rfl
      exact .ofExcept _

theorem evalArgs_renames (es : List Expr)
    (calls : CallsRenamed κ withLast loose invoke invoke' (callsOf es)) :
    Run.Renamed κ withLast loose Eq (evalArgs invoke es) (evalArgs invoke' (renameAll κ es)) := by
  cases es with
  | nil => exact .pure rfl
  | cons e es =>
    obtain ⟨callsE, callsEs⟩ := CallsRenamed.of_append calls
    refine (eval_renames e callsE).bind ?_
    rintro value _ rfl
    refine (evalArgs_renames es callsEs).bind ?_
    rintro values _ rfl
    exact .pure rfl

end

theorem evalAlone_renames (e : Expr)
    (calls : CallsRenamed κ withLast loose invoke invoke' e.calls) :
    Run.Renamed κ withLast loose Eq (e.evalAlone invoke) ((e.rename κ).evalAlone invoke') := by
  have value (e : Expr) (calls : CallsRenamed κ withLast loose invoke invoke' e.calls) :
      Run.Renamed κ withLast loose Eq (do return some (← e.eval invoke))
        (do return some (← (e.rename κ).eval invoke')) := by
    refine (eval_renames e calls).bind ?_
    rintro value _ rfl
    exact .pure rfl
  cases e with
  | call f es =>
    have arguments : CallsRenamed κ withLast loose invoke invoke' (callsOf es) :=
      fun g within => calls g (List.mem_cons_of_mem f within)
    refine (evalArgs_renames es arguments).bind ?_
    rintro values _ rfl
    exact Fn.apply_renames List.mem_cons_self calls values
  | _ => exact value _ calls

end Expr

def Next.shift (k : Nat) : Next → Next
  | .goto place => .goto (k + place)
  | .ret value => .ret value

/-- A label leads in both bodies to the same statement, which in the second one stands `k` places
further on. -/
def LeadsAlike (κ : Relabelling) (k : Nat) (body body' : Body) (l : Label) : Prop :=
  ∃ place, body.labelPlace? l = some place ∧ body'.labelPlace? (l.rename κ) = some (k + place)

variable {body body' : Body} {k : Nat}

theorem LeadsAlike.jump_renames {l : Label} (alike : LeadsAlike κ k body body' l) :
    Run.Renamed κ withLast loose (Next.shift k · = ·) (Run.jump body l)
      (Run.jump body' (l.rename κ)) := by
  obtain ⟨place, found, found'⟩ := alike
  unfold Run.jump
  rw [found, found']
  exact .pure rfl

theorem Run.stmt_renames {s : Stmt} (isFlat : s.isFlat = true)
    (jumps : ∀ l ∈ s.targets, LeadsAlike κ k body body' l)
    (calls : CallsRenamed κ withLast loose invoke invoke' s.calls) (isEntry : Bool) (place : Nat) :
    Run.Renamed κ withLast loose (Next.shift k · = ·) (Run.stmt invoke body isEntry place s)
      (Run.stmt invoke' body' isEntry (k + place) (s.rename κ)) := by
  cases s with
  | declare v e =>
    refine (e.eval_renames calls).bind ?_
    rintro value _ rfl
    exact .bind (.write v value) fun _ _ _ => .pure rfl
  | expr e =>
    refine (e.evalAlone_renames calls).bind ?_
    rintro value _ rfl
    cases isEntry with
    | true =>
      refine .bind (.modify fun s t renamed => ?_) fun _ _ _ => .pure rfl
      exact { renamed with last := fun _ => rfl }
    | false => exact .pure rfl
  | label l => exact .pure rfl
  | goto l => exact (jumps l List.mem_cons_self).jump_renames
  | gotoIf l c value =>
    refine (c.eval_renames calls).bind ?_
    rintro result _ rfl
    cases result with
    | bool b =>
      by_cases taken : b = value
      · simp only [taken, if_true]
        exact (jumps l List.mem_cons_self).jump_renames
      · simp only [taken, if_false]
        exact .pure rfl
    | _ => exact .fault _
  | ret value =>
    cases value with
    | none => exact .pure rfl
    | some e =>
      refine (e.eval_renames calls).bind ?_
      rintro result _ rfl
      exact .pure rfl
  | _ => contradiction

/-- The second body holds the first one from place `k` on, up to its end, under other numbers. -/
structure Body.Embedded (κ : Relabelling) (k : Nat) (body body' : Body) : Prop where
  get : ∀ place, body'[k + place]? = body[place]?.map (Stmt.rename κ)
  label : ∀ l, l.id ∈ definitions body → LeadsAlike κ k body body' l

theorem Stmt.defines_rename (l : Label) (s : Stmt) :
    (s.rename κ).defines (l.rename κ) = s.defines l := by
  cases s <;> simp [Stmt.rename, Stmt.defines, Label.rename]

theorem labelPlaceFrom?_rename (l : Label) (k place : Nat) (code : List Stmt) :
    labelPlaceFrom? (l.rename κ) (k + place) (code.map (Stmt.rename κ)) =
      (labelPlaceFrom? l place code).map (k + ·) := by
  induction code generalizing place with
  | nil => rfl
  | cons s code ih =>
    rw [List.map_cons, labelPlaceFrom?, labelPlaceFrom?, Stmt.defines_rename, Nat.add_assoc, ih]
    cases labelPlaceFrom? l (place + 1) code with
    | some later => rfl
    | none => cases s.defines l <;> rfl

/-- A label that is defined in code leads there, whatever stands before. -/
theorem labelPlaceFrom?_append {l : Label} {place target : Nat} (before : List Stmt)
    {code : List Stmt} (found : labelPlaceFrom? l (place + before.length) code = some target) :
    labelPlaceFrom? l place (before ++ code) = some target := by
  induction before generalizing place with
  | nil => exact found
  | cons s before ih =>
    have later : labelPlaceFrom? l (place + 1) (before ++ code) = some target :=
      ih (by rw [Nat.add_assoc, Nat.add_comm 1]; exact found)
    rw [List.cons_append, labelPlaceFrom?, later]

theorem Body.embedded_append (before : List Stmt) (body : Body) :
    Embedded κ before.length body (before ++ body.rename κ) where
  get place := by rw [List.getElem?_append_right (Nat.le_add_right _ _), Nat.add_sub_cancel_left,
    Body.rename, List.getElem?_map]
  label l defined := by
    obtain ⟨place, found⟩ := labelPlace?_of_mem defined
    have renamed := @labelPlaceFrom?_rename κ l before.length 0 body
    refine ⟨place, found, labelPlaceFrom?_append before ?_⟩
    rw [Nat.add_zero] at renamed
    rw [Nat.zero_add, Body.rename, renamed]
    exact congrArg (Option.map (before.length + ·)) found

theorem Body.embedded_rename (body : Body) : Embedded κ 0 body (body.rename κ) :=
  embedded_append [] body

end

/-- What the functions in `F` do, the second program has under other numbers. They call nothing
else. -/
structure Program.Renames (κ : Relabelling) (F : Fn → Prop) (p p' : Program) : Prop where
  body? : ∀ f, F f → f.builtin = none →
    p'.body? (f.rename κ) = (p.body? f).map (Body.rename κ)
  whole : ∀ f body, F f → p.body? f = some body → body.SelfContained
  calls : ∀ f body, F f → p.body? f = some body → CallsOnly F body

namespace Program.Renames

variable {κ : Relabelling} {withLast loose : Prop} {F : Fn → Prop} {p p' : Program} {extra : Nat}

/-- If bodies are run alike, then calls are. -/
theorem callee_renames {limit : Option Nat} {fuel fuel' : Nat} (renames : p.Renames κ F p')
    (runs : ∀ body : Body, body.SelfContained → CallsOnly F body →
      Run.Renamed κ withLast loose Eq (p.runFrom limit fuel body 0)
        (p'.runFrom limit fuel' (body.rename κ) 0)) {fs : List Fn} (among : ∀ f ∈ fs, F f) :
    CallsRenamed κ withLast loose (p.callee limit fuel) (p'.callee limit fuel') fs := by
  intro f member own args
  refine .get_bind fun s t renamed => ?_
  rw [renamed.reached? limit]
  cases s.reached? limit with
  | some n => exact .error _ renamed
  | none =>
    dsimp only
    rw [renames.body? f (among f member) own]
    cases found : p.body? f with
    | none => exact .error _ renamed
    | some body =>
      have frame : (Store.ofArguments f.parameters args).Renumbered κ.own _ :=
        Store.ofArguments_renumbered f.parameters args
      rw [← Fn.parameters_rename own] at frame
      exact Run.Renamed.inFrame frame (runs body (renames.whole f body (among f member) found)
        (renames.calls f body (among f member) found)) s t renamed

/-- Bodies are run alike, the second one with more fuel if that is allowed. -/
theorem runFrom_renames (renames : p.Renames κ F p') (limit : Option Nat)
    (spare : extra = 0 ∨ loose) (fuel : Nat) {k : Nat} {body body' : Body}
    (whole : body.SelfContained) (calls : CallsOnly F body)
    (embedded : Body.Embedded κ k body body') (place : Nat) :
    Run.Renamed κ withLast loose Eq (p.runFrom limit fuel body place)
      (p'.runFrom limit (fuel + extra) body' (k + place)) := by
  induction fuel generalizing k body body' place with
  | zero =>
    intro s t renamed
    rcases spare with rfl | isLoose
    · exact .error _ renamed
    · exact .starved isLoose
  | succ fuel ih =>
    intro s t renamed
    rw [Nat.add_right_comm fuel 1 extra]
    have get' := embedded.get place
    cases get : body[place]? with
    | none =>
      rw [get] at get'
      rw [Program.runFrom_end _ _ _ get, Program.runFrom_end _ _ _ get']
      exact .ok rfl renamed
    | some stmt =>
      rw [get] at get'
      rw [Program.runFrom_succ _ _ _ get, Program.runFrom_succ _ _ _ get', renamed.inEntry]
      have member := List.mem_of_getElem? get
      have called : CallsRenamed κ withLast loose (p.callee limit fuel)
          (p'.callee limit (fuel + extra)) stmt.calls :=
        renames.callee_renames (fun callee whole calls => ih whole calls callee.embedded_rename 0)
          (calls stmt member)
      have jumps : ∀ l ∈ stmt.targets, LeadsAlike κ k body body' l :=
        fun l target => embedded.label l (whole.targets stmt member l target)
      have step := Run.stmt_renames (List.all_eq_true.1 whole.isFlat stmt member) jumps called
        s.inEntry place s t renamed
      generalize Run.stmt (p.callee limit fuel) body s.inEntry place stmt s = first at step ⊢
      generalize Run.stmt (p'.callee limit (fuel + extra)) body' s.inEntry (k + place)
        (stmt.rename κ) t = second at step ⊢
      cases step with
      | ok related renamed' =>
        subst related
        rename_i next _ _
        cases next with
        | goto target => exact ih whole calls embedded target _ _ renamed'
        | ret value => exact .ok rfl renamed'
      | error stop renamed' => exact .error stop renamed'
      | starved isLoose => exact .starved isLoose

end Program.Renames

/-- The outcomes are the same but for the numbers and the names of variables. -/
structure Outcome.Renamed (κ : Relabelling) (first second : Outcome) : Prop where
  result : second.result = first.result.mapError (Stop.relabel κ.label)
  globals : first.globals.Renumbered κ.own second.globals
  host : second.host = first.host

/-- Programs with the same code but for the numbers of symbols and the names of variables have the
same outcome. -/
theorem Program.Renames.evaluate_relabels {κ : Relabelling} {F : Fn → Prop} {p p' : Program}
    (renames : p.Renames κ F p') (noErrors : p.diagnostics.hasErrors = false)
    (noErrors' : p'.diagnostics.hasErrors = false) (entry : p'.entry = p.entry.map (Fn.rename κ))
    (own : ∀ e, p.entry = some e → F e ∧ e.builtin = none) (limit : Option Nat) (fuel : Nat)
    {globals globals' : Store} (start : globals.Renumbered κ.own globals') (host : Host) :
    (p.evaluate limit fuel globals host).Renamed κ (p'.evaluate limit fuel globals' host) := by
  have runs : Run.Renamed κ True False Eq (p.execute limit fuel) (p'.execute limit fuel) := by
    unfold Program.execute Program.executeWith
    rw [noErrors, noErrors', entry]
    cases isEntry : p.entry with
    | none => exact .pure rfl
    | some e =>
      obtain ⟨isIn, isOwn⟩ := own e isEntry
      simp only [Option.map_some, renames.body? e isIn isOwn]
      cases found : p.body? e with
      | none => exact .fault _
      | some body =>
        refine .bind (R := Eq) (.inFrame .empty ?_) ?_
        · exact renames.runFrom_renames limit (.inl (rfl : 0 = 0)) fuel
            (renames.whole e body isIn found) (renames.calls e body isIn found)
            body.embedded_rename 0
        · rintro value _ rfl
          exact .get_bind fun s t renamed => .ok (by rw [renamed.last trivial]) renamed
  have outcome := runs { globals, frames := [], host, last := none }
    { globals := globals', frames := [], host, last := none } ⟨start, .nil, rfl, fun _ => rfl⟩
  unfold Program.evaluate Run.outcome
  generalize p.execute limit fuel { globals, frames := [], host, last := none } = first at outcome ⊢
  generalize p'.execute limit fuel
    { globals := globals', frames := [], host, last := none } = second at outcome ⊢
  cases outcome with
  | ok related renamed => exact ⟨congrArg Except.ok related.symm, renamed.globals, renamed.host⟩
  | error stop renamed => exact ⟨rfl, renamed.globals, renamed.host⟩
  | starved impossible => exact impossible.elim

structure Outcome.Renumbered (number : Nat → Nat) (first second : Outcome) : Prop where
  result : second.result = first.result
  globals : first.globals.Renumbered number second.globals
  host : second.host = first.host

theorem Stop.relabel_plain (ρ : Renaming) (stop : Stop) : stop.relabel ρ.plain.label = stop := by
  cases stop with
  | outOfFuel => rfl
  | fault f =>
    cases f with
    | defect d => cases d <;> rfl
    | _ => rfl

theorem Outcome.Renamed.renumbered {ρ : Renaming} {first second : Outcome}
    (renamed : first.Renamed ρ second) : first.Renumbered ρ.own second := by
  refine ⟨?_, renamed.globals, renamed.host⟩
  rw [renamed.result]
  cases first.result with
  | ok value => rfl
  | error stop => exact congrArg Except.error (Stop.relabel_plain ρ stop)

/-- Programs with the same code but for the numbers of symbols have the same outcome. -/
theorem Program.Renames.evaluate_renames {ρ : Renaming} {F : Fn → Prop} {p p' : Program}
    (renames : p.Renames ρ F p') (noErrors : p.diagnostics.hasErrors = false)
    (noErrors' : p'.diagnostics.hasErrors = false) (entry : p'.entry = p.entry.map (Fn.rename ρ))
    (own : ∀ e, p.entry = some e → F e ∧ e.builtin = none) (limit : Option Nat) (fuel : Nat)
    {globals globals' : Store} (start : globals.Renumbered ρ.own globals') (host : Host) :
    (p.evaluate limit fuel globals host).Renumbered ρ.own
      (p'.evaluate limit fuel globals' host) :=
  (renames.evaluate_relabels noErrors noErrors' entry own limit fuel start host).renumbered

end ScriptLang
