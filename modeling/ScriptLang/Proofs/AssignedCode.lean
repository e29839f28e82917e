import Mathlib.Data.List.Nodup
import ScriptLang.Proofs.BindingScopes
import ScriptLang.Proofs.BoundChains
import ScriptLang.Proofs.UnreachableRuns

/-! Control may come to a place of a flat body on many ways. A variable is assigned there if each
of them passes its declaration, or if it is a parameter. Lowered code mentions only variables
that are assigned where they stand, but for those declared bare and those that are not
declared in the body at all. -/

namespace ScriptLang

def Stmt.mentioned : Stmt → List Var
  | declare _ e | gotoIf _ e _ | ret (some e) | expr e => e.vars
  | _ => []

/-- Variables that are assigned at the places of a body, all of which start with the parameters:
a body mentions no others but `exempt` ones, and on every step from one place to the next one
only the declaration of a variable makes it assigned. -/
structure Body.AssignedAt (exempt : Var → Prop) (parameters : List Var) (body : Body)
    (assigned : Nat → Var → Prop) : Prop where
  start : ∀ v, assigned 0 v → v ∈ parameters
  mentions : ∀ place s, body[place]? = some s →
    ∀ v ∈ s.mentioned, exempt v ∨ assigned place v
  leads : ∀ place target s, body[place]? = some s → s.LeadsTo body place target →
    ∀ v, assigned target v → assigned place v ∨ ∃ e, s = .declare v e

section

-- `atLabel` says what is assigned at a label, from wherever control comes there.
variable (atLabel : Nat → Var → Prop) (exempt : Var → Prop)

/-- What is assigned behind a statement if `before` is in front of it. Control never comes
behind a jump. -/
def Stmt.assigns (before : Var → Prop) : Stmt → Var → Prop
  | label l => atLabel l.id
  | goto _ | ret _ => fun _ => True
  | declare w _ => fun v => before v ∨ v = w
  | _ => before

/-- With `before` assigned in front of it, the statement mentions what is assigned, and what must
be assigned at a label to which it leads is assigned. -/
structure Stmt.Follows (before : Var → Prop) (s : Stmt) : Prop where
  mentions : ∀ v ∈ s.mentioned, exempt v ∨ before v
  jumps : ∀ l ∈ s.targets, ∀ v, atLabel l.id v → before v
  enters : ∀ l, s = .label l → ∀ v, atLabel l.id v → before v

def assignsAll (before : Var → Prop) : List Stmt → Var → Prop
  | [] => before
  | s :: code => assignsAll (s.assigns atLabel before) code

def AllFollow (before : Var → Prop) : List Stmt → Prop
  | [] => True
  | s :: code => s.Follows atLabel exempt before ∧ AllFollow (s.assigns atLabel before) code

/-- Wherever at least `before` is assigned in front of the code, it may be run, and at least
`behind` is assigned at its end. -/
def Covers (before : Var → Prop) (code : List Stmt) (behind : Var → Prop) : Prop :=
  ∀ assigned, (∀ v, before v → assigned v) → AllFollow atLabel exempt assigned code ∧
    ∀ v, behind v → assignsAll atLabel assigned code v

end

section

variable {atLabel : Nat → Var → Prop} {exempt : Var → Prop} {D M N : Var → Prop}
  {a b code : List Stmt}

theorem allFollow_append {before : Var → Prop} :
    AllFollow atLabel exempt before (a ++ b) ↔
      AllFollow atLabel exempt before a ∧ AllFollow atLabel exempt (assignsAll atLabel before a) b := by
  induction a generalizing before with
  | nil => simp [AllFollow, assignsAll]
  | cons s a ih => simp [AllFollow, assignsAll, ih, and_assoc]

theorem assignsAll_append {before : Var → Prop} :
    assignsAll atLabel before (a ++ b) = assignsAll atLabel (assignsAll atLabel before a) b := by
  induction a generalizing before with
  | nil => rfl
  | cons s a ih => exact ih

namespace Covers

theorem nil (part : ∀ v, M v → D v) : Covers atLabel exempt D [] M :=
  fun _ wider => ⟨trivial, fun v isM => wider v (part v isM)⟩

theorem append (first : Covers atLabel exempt D a M) (second : Covers atLabel exempt M b N) :
    Covers atLabel exempt D (a ++ b) N := by
  intro assigned wider
  obtain ⟨follow, behind⟩ := first assigned wider
  obtain ⟨follow', behind'⟩ := second _ behind
  refine ⟨allFollow_append.2 ⟨follow, follow'⟩, fun v isN => ?_⟩
  rw [assignsAll_append]
  exact behind' v isN

theorem weaken {D' M' : Var → Prop} (covers : Covers atLabel exempt D code M)
    (more : ∀ v, D v → D' v) (less : ∀ v, M' v → M v) : Covers atLabel exempt D' code M' := by
  intro assigned wider
  obtain ⟨follow, behind⟩ := covers assigned fun v isD => wider v (more v isD)
  exact ⟨follow, fun v isM => behind v (less v isM)⟩

/-- One statement, with what holds in front of it and behind it. -/
theorem one {s : Stmt} (mentions : ∀ v ∈ s.mentioned, exempt v ∨ D v)
    (jumps : ∀ l ∈ s.targets, ∀ v, atLabel l.id v → D v)
    (enters : ∀ l, s = .label l → ∀ v, atLabel l.id v → D v)
    (behind : ∀ assigned : Var → Prop, (∀ v, D v → assigned v) →
      ∀ v, M v → s.assigns atLabel assigned v) : Covers atLabel exempt D [s] M := by
  intro assigned wider
  refine ⟨⟨⟨fun v member => (mentions v member).imp_right (wider v), ?_, ?_⟩, trivial⟩,
    behind assigned wider⟩
  · exact fun l target v isAt => wider v (jumps l target v isAt)
  · exact fun l isLabel v isAt => wider v (enters l isLabel v isAt)

theorem label {l : Label} (enters : ∀ v, atLabel l.id v → D v) (leaves : ∀ v, M v → atLabel l.id v) :
    Covers atLabel exempt D [.label l] M := by
  refine .one (List.forall_mem_nil _) (List.forall_mem_nil _) ?_ fun _ _ => leaves
  rintro _ ⟨⟩
  exact enters

theorem goto {l : Label} (jumps : ∀ v, atLabel l.id v → D v) : Covers atLabel exempt D [.goto l] M :=
  .one (List.forall_mem_nil _) (List.forall_mem_singleton.2 jumps) (by simp) fun _ _ _ _ => trivial

theorem ret {value : Option Expr} (mentions : ∀ v ∈ (Stmt.ret value).mentioned, exempt v ∨ D v) :
    Covers atLabel exempt D [.ret value] M :=
  .one mentions (List.forall_mem_nil _) (by simp) fun _ _ _ _ => trivial

theorem declare {w : Var} {e : Expr} (mentions : ∀ v ∈ e.vars, exempt v ∨ D v) :
    Covers atLabel exempt D [.declare w e] fun v => D v ∨ v = w :=
  .one mentions (List.forall_mem_nil _) (by simp) fun _ wider v => .imp_left (wider v)

theorem expr {e : Expr} (mentions : ∀ v ∈ e.vars, exempt v ∨ D v) :
    Covers atLabel exempt D [.expr e] D :=
  .one mentions (List.forall_mem_nil _) (by simp) fun _ wider => wider

theorem jumpIf {l : Label} {c : Expr} (mentions : ∀ v ∈ c.vars, exempt v ∨ D v)
    (jumps : ∀ v, atLabel l.id v → D v) (value : Bool) :
    Covers atLabel exempt D (jumpIf l c value) D := by
  unfold ScriptLang.jumpIf
  split
  · split
    · exact .goto jumps
    · exact .nil fun _ => id
  · exact .one mentions (List.forall_mem_singleton.2 jumps) (by simp) fun _ wider => wider

/-- A loop that tests its condition first, with the invariant `I` at its two inner labels. -/
theorem loopCode {I : Var → Prop} {l : Label} {labels : LoopLabels} {c : Expr}
    (onBody : ∀ v, atLabel l.id v ↔ I v) (onContinue : ∀ v, atLabel labels.onContinue.id v ↔ I v)
    (onBreak : ∀ v, atLabel labels.onBreak.id v → I v) (mentions : ∀ v ∈ c.vars, exempt v ∨ I v)
    (enters : ∀ v, I v → D v) (body : Covers atLabel exempt I code I)
    (leaves : ∀ v, M v → atLabel labels.onBreak.id v) :
    Covers atLabel exempt D (loopCode l labels c code) M := by
  have enter : Covers atLabel exempt D ([.goto labels.onContinue] ++ [.label l]) I :=
    (Covers.goto (M := I) fun v isAt => enters v ((onContinue v).1 isAt)).append
      (.label (fun v => (onBody v).1) fun v => (onBody v).2)
  have test : Covers atLabel exempt I [.label labels.onContinue] I :=
    .label (fun v => (onContinue v).1) fun v => (onContinue v).2
  exact (((enter.append body).append test).append
    (.jumpIf mentions (fun v => (onBody v).1) true)).append (.label onBreak leaves)

/-- The step of a `for` loop, at whose end the loop is left with less than its invariant. -/
theorem stepCode {I : Var → Prop} {v upper : Var} {labels : LoopLabels}
    (onContinue : ∀ w, atLabel labels.onContinue.id w ↔ I w)
    (onBreak : ∀ w, atLabel labels.onBreak.id w → I w) (reads : exempt v ∨ I v)
    (reads' : exempt upper ∨ I upper) : Covers atLabel exempt I (stepCode v upper labels) I := by
  have enter : Covers atLabel exempt I [.label labels.onContinue] I :=
    .label (fun w => (onContinue w).1) fun w => (onContinue w).2
  have test : ∀ w ∈ (Expr.binary (.var v) .intEquals (.var upper)).vars, exempt w ∨ I w := by
    simp [Expr.vars, reads, reads']
  exact (enter.append (.jumpIf test onBreak true)).append (.expr (by simp [Expr.vars, reads]))

end Covers

end

namespace Stmt

mutual

/-- What is assigned at the labels in the flat code of a statement that starts with `before`, in
the order of the labels. -/
def marks (before : Var → Prop) : Stmt → Nat → List (Nat × (Var → Prop))
  | block body, n => marksOf before body n
  | ifThen _ t, n => t.marks before (n + 1) ++ [(n, before)]
  | ifElse _ t e, n =>
    t.marks before (n + 2) ++ [(n + 1, before)] ++ e.marks before (t.lower (n + 2)).2 ++ [(n, before)]
  | whileDo _ body l, n =>
    (n, before) :: (body.marks before (n + 1) ++ [(l.onContinue.id, before), (l.onBreak.id, before)])
  | doWhile body _ l, n =>
    let behind v := before v ∨ v ∈ body.settled
    (n, before) :: (body.marks before (n + 1) ++ [(l.onContinue.id, behind), (l.onBreak.id, behind)])
  | forIn w _ body l, n =>
    let inner v := (before v ∨ v = w) ∨ v = upperBound w n
    (n + 2, inner) :: (body.marks inner (n + 3) ++
      [(l.onContinue.id, inner), (n + 1, inner), (l.onBreak.id, before)])
  | label l, _ => [(l.id, before)]
  | declare _ _, _ | goto _, _ | gotoIf _ _ _, _ | ret _, _ | expr _, _ => []

def marksOf (before : Var → Prop) : List Stmt → Nat → List (Nat × (Var → Prop))
  | [], _ => []
  | s :: ss, n =>
    s.marks before n ++ marksOf (fun v => before v ∨ v ∈ s.settled) ss (s.lower n).2

end

mutual

theorem marks_keys (before : Var → Prop) (s : Stmt) (n : Nat) :
    (s.marks before n).map Prod.fst = definitions (s.lower n).1 := by
  cases s with
  | block body => exact marksOf_keys before body n
  | ifThen c t =>
    rw [lower_ifThen]
    simp [marks, marks_keys before t]
  | ifElse c t e =>
    rw [lower_ifElse]
    simp [marks, marks_keys before t, marks_keys before e]
  | whileDo c body labels =>
    rw [lower_whileDo]
    simp [marks, marks_keys before body]
  | doWhile body c labels =>
    rw [lower_doWhile]
    simp [marks, marks_keys before body]
  | forIn w range body labels =>
    rw [lower_forIn]
    simp [marks, marks_keys _ body]
  | gotoIf l c value => exact (definitions_jumpIf l c value).symm
  | declare _ _ | label _ | goto _ | ret _ | expr _ => rfl

theorem marksOf_keys (before : Var → Prop) (ss : List Stmt) (n : Nat) :
    (marksOf before ss n).map Prod.fst = definitions (lowerAll ss n).1 := by
  cases ss with
  | nil => rfl
  | cons s ss =>
    rw [lowerAll_cons]
    simp [marksOf, marks_keys before s, marksOf_keys _ ss]

end

/-- A statement that settles a variable for what follows is a declaration, maybe repeated. -/
theorem JumpsWithin.of_settled {s : Stmt} {loops : List LoopLabels} (jumps : s.JumpsWithin loops)
    (some : s.settled ≠ []) (others : List LoopLabels) : s.JumpsWithin others := by
  cases s with
  | declare w e => trivial
  | doWhile body c labels =>
    exact JumpsWithin.of_settled (s := body) jumps some (labels :: others)
  | _ => contradiction

/-- At the labels of the loops no more than `before` must be assigned. -/
def LeavesWith (atLabel : Nat → Var → Prop) (loops : List LoopLabels) (before : Var → Prop) : Prop :=
  ∀ k ∈ loops, ∀ v, (atLabel k.onBreak.id v → before v) ∧ (atLabel k.onContinue.id v → before v)

section

variable {atLabel : Nat → Var → Prop} {exempt : Var → Prop}

theorem LeavesWith.enter {loops : List LoopLabels} {before D : Var → Prop}
    (outer : LeavesWith atLabel loops before) (wider : ∀ v, before v → D v) {labels : LoopLabels}
    (onBreak : ∀ v, atLabel labels.onBreak.id v → D v)
    (onContinue : ∀ v, atLabel labels.onContinue.id v → D v) :
    LeavesWith atLabel (labels :: loops) D :=
  List.forall_mem_cons.2 ⟨fun v => ⟨onBreak v, onContinue v⟩,
    fun k member v => (outer k member v).imp (wider v ∘ ·) (wider v ∘ ·)⟩

section

variable {D : Var → Prop} {n : Nat} {c : Expr}

theorem ifThen_covers {t : Stmt} (reads : ∀ v ∈ c.vars, exempt v ∨ D v)
    (inner : Covers atLabel exempt D (t.lower (n + 1)).1 fun v => D v ∨ v ∈ t.settled)
    (atEnd : ∀ v, atLabel n v ↔ D v) : Covers atLabel exempt D ((ifThen c t).lower n).1 D := by
  rw [lower_ifThen]
  exact ((Covers.jumpIf reads (fun v => (atEnd v).1) false).append inner).append
    (.label (fun v isAt => .inl ((atEnd v).1 isAt)) fun v => (atEnd v).2)

theorem ifElse_covers {t e : Stmt} (reads : ∀ v ∈ c.vars, exempt v ∨ D v)
    (first : Covers atLabel exempt D (t.lower (n + 2)).1 fun v => D v ∨ v ∈ t.settled)
    (second : Covers atLabel exempt D (e.lower (t.lower (n + 2)).2).1 fun v => D v ∨ v ∈ e.settled)
    (atElse : ∀ v, atLabel (n + 1) v ↔ D v) (atEnd : ∀ v, atLabel n v ↔ D v) :
    Covers atLabel exempt D ((ifElse c t e).lower n).1 D := by
  have between : Covers atLabel exempt (fun v => D v ∨ v ∈ t.settled)
      ([.goto ⟨n, "end"⟩] ++ [.label ⟨n + 1, "else"⟩]) D :=
    (Covers.goto (M := D) fun v isAt => .inl ((atEnd v).1 isAt)).append
      (.label (fun v => (atElse v).1) fun v => (atElse v).2)
  rw [lower_ifElse]
  exact ((((Covers.jumpIf reads (fun v => (atElse v).1) false).append first).append
    between).append second).append
    (.label (fun v isAt => .inl ((atEnd v).1 isAt)) fun v => (atEnd v).2)

theorem whileDo_covers {body : Stmt} {labels : LoopLabels} (reads : ∀ v ∈ c.vars, exempt v ∨ D v)
    (inner : Covers atLabel exempt D (body.lower (n + 1)).1 fun v => D v ∨ v ∈ body.settled)
    (onBody : ∀ v, atLabel n v ↔ D v) (onContinue : ∀ v, atLabel labels.onContinue.id v ↔ D v)
    (onBreak : ∀ v, atLabel labels.onBreak.id v ↔ D v) :
    Covers atLabel exempt D ((whileDo c body labels).lower n).1 D := by
  rw [lower_whileDo]
  exact .loopCode onBody onContinue (fun v => (onBreak v).1) reads (fun _ => id)
    (inner.weaken (fun _ => id) fun _ => .inl) fun v => (onBreak v).2

/-- What the body settles is assigned where its condition is tested, and behind the loop. -/
theorem doWhile_covers {body : Stmt} {labels : LoopLabels}
    (inner : Covers atLabel exempt D (body.lower (n + 1)).1 fun v => D v ∨ v ∈ body.settled)
    (reads : ∀ v ∈ c.vars, exempt v ∨ (D v ∨ v ∈ body.settled)) (onBody : ∀ v, atLabel n v ↔ D v)
    (onContinue : ∀ v, atLabel labels.onContinue.id v ↔ (D v ∨ v ∈ body.settled))
    (onBreak : ∀ v, atLabel labels.onBreak.id v ↔ (D v ∨ v ∈ body.settled)) :
    Covers atLabel exempt D ((doWhile body c labels).lower n).1 fun v => D v ∨ v ∈ body.settled := by
  rw [lower_doWhile]
  exact ((((Covers.label (fun v => (onBody v).1) fun v => (onBody v).2).append inner).append
    (.label (fun v => (onContinue v).1) fun v => (onContinue v).2)).append
    (.jumpIf reads (fun v isAt => .inl ((onBody v).1 isAt)) true)).append
    (.label (fun v => (onBreak v).1) fun v => (onBreak v).2)

theorem forIn_covers {w : Var} {range : Expr} {body : Stmt} {labels : LoopLabels}
    (reads : ∀ v ∈ range.bounds.1.vars, exempt v ∨ D v)
    (reads' : ∀ v ∈ range.bounds.2.vars, exempt v ∨ D v)
    (inner : Covers atLabel exempt (fun v => (D v ∨ v = w) ∨ v = upperBound w n) (body.lower (n + 3)).1
      fun v => ((D v ∨ v = w) ∨ v = upperBound w n) ∨ v ∈ body.settled)
    (onBody : ∀ v, atLabel (n + 2) v ↔ ((D v ∨ v = w) ∨ v = upperBound w n))
    (onContinue : ∀ v, atLabel labels.onContinue.id v ↔ ((D v ∨ v = w) ∨ v = upperBound w n))
    (onTest : ∀ v, atLabel (n + 1) v ↔ ((D v ∨ v = w) ∨ v = upperBound w n))
    (onBreak : ∀ v, atLabel labels.onBreak.id v ↔ D v) :
    Covers atLabel exempt D ((forIn w range body labels).lower n).1 D := by
  have old (v : Var) (isAt : atLabel labels.onBreak.id v) : (D v ∨ v = w) ∨ v = upperBound w n :=
    .inl (.inl ((onBreak v).1 isAt))
  have enter : Covers atLabel exempt D
      ([declare w range.bounds.1] ++ [declare (upperBound w n) range.bounds.2])
      fun v => (D v ∨ v = w) ∨ v = upperBound w n :=
    (Covers.declare reads).append (.declare fun v member => (reads' v member).imp_right .inl)
  have step : Covers atLabel exempt (fun v => (D v ∨ v = w) ∨ v = upperBound w n)
      (stepCode w (upperBound w n) labels) fun v => (D v ∨ v = w) ∨ v = upperBound w n :=
    .stepCode onContinue old (.inr (.inl (.inr rfl))) (.inr (.inr rfl))
  have test : ∀ v ∈ (Expr.binary (.var w) .intLessOrEquals (.var (upperBound w n))).vars,
      exempt v ∨ ((D v ∨ v = w) ∨ v = upperBound w n) := by
    simp [Expr.vars]
  rw [lower_forIn]
  exact enter.append (.loopCode onBody onTest old test (fun _ => id)
    ((inner.weaken (fun _ => id) fun _ => .inl).append step) fun v => (onBreak v).2)

end

/-- A body that declares variables for the condition does not jump to the labels of its loop. -/
theorem LeavesWith.enterDo {loops : List LoopLabels} {D : Var → Prop} {body : Stmt} {labels : LoopLabels}
    (outer : LeavesWith atLabel loops D) (jumps : body.JumpsWithin (labels :: loops))
    (onContinue : ∀ v, atLabel labels.onContinue.id v ↔ (D v ∨ v ∈ body.settled))
    (onBreak : ∀ v, atLabel labels.onBreak.id v ↔ (D v ∨ v ∈ body.settled)) :
    ∃ inner, body.JumpsWithin inner ∧ LeavesWith atLabel inner D := by
  by_cases none : body.settled = []
  · simp only [none, List.not_mem_nil, or_false] at onBreak onContinue
    exact ⟨_, jumps, outer.enter (fun _ => id) (fun v => (onBreak v).1) fun v => (onContinue v).1⟩
  · exact ⟨[], jumps.of_settled none [], List.forall_mem_nil _⟩

/-- In the body of a `for` loop its variable and the upper bound are assigned as well. -/
theorem known_inside {S D : Var → Prop} {w : Var} (upper : Var) (known : ∀ v, S v → exempt v ∨ D v)
    (v : Var) (inScope : S v ∨ v = w) : exempt v ∨ ((D v ∨ v = w) ∨ v = upper) := by
  rcases inScope with isS | isLoop
  · exact (known v isS).imp_right (.inl ∘ .inl)
  · exact .inr (.inl (.inr isLoop))

/-- Behind a statement in scope of `S`, what it exports is settled or stands bare. -/
theorem known_behind {S D : Var → Prop} {s : Stmt} (known : ∀ v, S v → exempt v ∨ D v)
    (bare : ∀ v ∈ s.bare, exempt v) (v : Var) (inScope : S v ∨ v ∈ s.exports) :
    exempt v ∨ (D v ∨ v ∈ s.settled) := by
  rcases inScope with isS | exported
  · exact (known v isS).imp_right .inl
  · exact (settled_or_bare exported).symm.imp (bare v) .inr

mutual

/-- The flat code of a statement in scope of `S` may be run where `D` is assigned, if all of `S`
is assigned or exempt. At the labels of the loops around it no more than `D` must be assigned. -/
theorem lower_covers {S D : Var → Prop} (s : Stmt) (n : Nat) {loops : List LoopLabels}
    (inScope : s.Scoped S) (known : ∀ v, S v → exempt v ∨ D v) (bare : ∀ v ∈ s.bare, exempt v)
    (jumps : s.JumpsWithin loops)
    (outer : LeavesWith atLabel loops D)
    (agrees : ∀ m ∈ s.marks D n, ∀ v, atLabel m.1 v ↔ m.2 v) :
    Covers atLabel exempt D (s.lower n).1 fun v => D v ∨ v ∈ s.settled := by
  have reads {vs : List Var} (within : ∀ v ∈ vs, S v) (v : Var) (member : v ∈ vs) :
      exempt v ∨ D v := known v (within v member)
  have settlesNothing {code : List Stmt} (covers : Covers atLabel exempt D code D) :
      Covers atLabel exempt D code fun v => D v ∨ v ∈ [] :=
    covers.weaken (fun _ => id) fun v isD => isD.resolve_right List.not_mem_nil
  cases s with
  | block body => exact settlesNothing (lowerAll_covers body n inScope known bare jumps outer agrees)
  | declare w e =>
    exact (Covers.declare (reads inScope)).weaken (fun _ => id) fun v =>
      .imp_right List.mem_singleton.1
  | ifThen c t =>
    obtain ⟨agreesT, atEnd⟩ := List.forall_mem_append.1 agrees
    have inner := lower_covers t (n + 1) inScope.2 known
      (fun v member => bare v (List.mem_append_right _ member)) jumps outer agreesT
    exact settlesNothing (ifThen_covers (reads inScope.1) inner (atEnd _ List.mem_cons_self))
  | ifElse c t e =>
    obtain ⟨agreesTE, atEnd⟩ := List.forall_mem_append.1 agrees
    obtain ⟨agreesTL, agreesE⟩ := List.forall_mem_append.1 agreesTE
    obtain ⟨agreesT, atElse⟩ := List.forall_mem_append.1 agreesTL
    obtain ⟨bareT, bareE⟩ := List.forall_mem_append.1 bare
    obtain ⟨exportedT, bareT⟩ := List.forall_mem_append.1 bareT
    have first := lower_covers t (n + 2) inScope.2.1 known bareT jumps.1 outer agreesT
    -- What the first branch exports stands bare, so it is exempt in the second one.
    have known' (v : Var) (isKnown : S v ∨ v ∈ t.exports) : exempt v ∨ D v :=
      isKnown.elim (known v) fun exported => .inl (exportedT v exported)
    have second := lower_covers e (t.lower (n + 2)).2 inScope.2.2 known'
      (fun v member => bareE v (List.mem_append_right _ member)) jumps.2 outer agreesE
    exact settlesNothing (ifElse_covers (reads inScope.1) first second (atElse _ List.mem_cons_self)
      (atEnd _ List.mem_cons_self))
  | whileDo c body labels =>
    obtain ⟨onBody, agreesRest⟩ := List.forall_mem_cons.1 agrees
    obtain ⟨agreesB, agreesL⟩ := List.forall_mem_append.1 agreesRest
    obtain ⟨onContinue, onBreak⟩ := List.forall_mem_cons.1 agreesL
    have onBreak := onBreak _ List.mem_cons_self
    have outer' := outer.enter (fun _ => id) (fun v => (onBreak v).1) fun v => (onContinue v).1
    have inner := lower_covers body (n + 1) inScope.2 known
      (fun v member => bare v (List.mem_append_right _ member)) jumps outer' agreesB
    exact settlesNothing (whileDo_covers (reads inScope.1) inner onBody onContinue onBreak)
  | doWhile body c labels =>
    obtain ⟨onBody, agreesRest⟩ := List.forall_mem_cons.1 agrees
    obtain ⟨agreesB, agreesL⟩ := List.forall_mem_append.1 agreesRest
    obtain ⟨onContinue, onBreak⟩ := List.forall_mem_cons.1 agreesL
    have onBreak := onBreak _ List.mem_cons_self
    obtain ⟨loops', jumps', outer'⟩ := outer.enterDo jumps onContinue onBreak
    have inner := lower_covers body (n + 1) inScope.1 known bare jumps' outer' agreesB
    exact doWhile_covers inner (fun v member => known_behind known bare v (inScope.2 v member)) onBody
      onContinue onBreak
  | forIn w range body labels =>
    obtain ⟨onBody, agreesRest⟩ := List.forall_mem_cons.1 agrees
    obtain ⟨agreesB, agreesL⟩ := List.forall_mem_append.1 agreesRest
    obtain ⟨onContinue, agreesL⟩ := List.forall_mem_cons.1 agreesL
    obtain ⟨onTest, onBreak⟩ := List.forall_mem_cons.1 agreesL
    have onBreak := onBreak _ List.mem_cons_self
    have old (v : Var) (isD : D v) : (D v ∨ v = w) ∨ v = upperBound w n := .inl (.inl isD)
    have outer' := outer.enter old (fun v isAt => old v ((onBreak v).1 isAt))
      fun v => (onContinue v).1
    have inner := lower_covers body (n + 3) inScope.2 (known_inside _ known) bare jumps outer' agreesB
    have bounds := Expr.forall_mem_vars_bounds inScope.1
    exact settlesNothing
      (forIn_covers (reads bounds.1) (reads bounds.2) inner onBody onContinue onTest onBreak)
  | goto l =>
    obtain ⟨k, member, isLabel⟩ := jumps
    refine .goto fun v isAt => ?_
    rcases isLabel with rfl | rfl
    · exact (outer k member v).1 isAt
    · exact (outer k member v).2 isAt
  | label | gotoIf => exact jumps.elim
  | ret value =>
    cases value with
    | none => exact .ret (List.forall_mem_nil _)
    | some e => exact .ret (reads inScope)
  | expr e => exact settlesNothing (Covers.expr (reads inScope))

theorem lowerAll_covers {S D : Var → Prop} (ss : List Stmt) (n : Nat) {loops : List LoopLabels}
    (inScope : AllScoped S ss) (known : ∀ v, S v → exempt v ∨ D v) (bare : ∀ v ∈ bareOf ss, exempt v)
    (jumps : AllJumpWithin loops ss)
    (outer : LeavesWith atLabel loops D)
    (agrees : ∀ m ∈ marksOf D ss n, ∀ v, atLabel m.1 v ↔ m.2 v) :
    Covers atLabel exempt D (lowerAll ss n).1 D := by
  cases ss with
  | nil => exact .nil fun _ => id
  | cons s ss =>
    obtain ⟨bareS, bareSs⟩ := List.forall_mem_append.1 bare
    obtain ⟨agreesS, agreesSs⟩ := List.forall_mem_append.1 agrees
    have first := lower_covers s n inScope.1 known bareS jumps.1 outer agreesS
    have outer' : LeavesWith atLabel loops fun v => D v ∨ v ∈ s.settled :=
      fun k member v => (outer k member v).imp (Or.inl ∘ ·) (Or.inl ∘ ·)
    have rest := lowerAll_covers ss (s.lower n).2 inScope.2 (known_behind known bareS) bareSs jumps.2
      outer' agreesSs
    rw [lowerAll_cons]
    exact (first.append rest).weaken (fun _ => id) fun _ => .inl

end

end

end Stmt

section

variable {atLabel : Nat → Var → Prop} {exempt : Var → Prop}

def Stmt.meets (atLabel : Nat → Var → Prop) (before : Var → Prop) : Stmt → Var → Prop
  | label l => atLabel l.id
  | _ => before

def assignedAt (atLabel : Nat → Var → Prop) (before : Var → Prop) : List Stmt → Nat → Var → Prop
  | [], _ => before
  | s :: _, 0 => s.meets atLabel before
  | s :: code, place + 1 => assignedAt atLabel (s.assigns atLabel before) code place

theorem assignedAt_label {code : List Stmt} {before : Var → Prop} {place : Nat} {l : Label}
    (get : code[place]? = some (.label l)) : assignedAt atLabel before code place = atLabel l.id := by
  induction code generalizing before place with
  | nil => contradiction
  | cons s code ih =>
    cases place with
    | zero =>
      obtain rfl := Option.some.inj get
      rfl
    | succ place => exact ih get

/-- No more is assigned at the start of code than in front of it. -/
theorem assignedAt_zero {code : List Stmt} {before : Var → Prop}
    (follow : AllFollow atLabel exempt before code) {v : Var}
    (isAssigned : assignedAt atLabel before code 0 v) : before v := by
  cases code with
  | nil => exact isAssigned
  | cons s code =>
    cases s with
    | label l => exact follow.1.enters l rfl v isAssigned
    | _ => exact isAssigned

theorem assignedAt_follows {code : List Stmt} {before : Var → Prop}
    (follow : AllFollow atLabel exempt before code) {place : Nat} {s : Stmt}
    (get : code[place]? = some s) :
    (∀ v ∈ s.mentioned, exempt v ∨ assignedAt atLabel before code place v) ∧
      ∀ l ∈ s.targets, ∀ v, atLabel l.id v → assignedAt atLabel before code place v := by
  induction code generalizing before place with
  | nil => contradiction
  | cons first code ih =>
    cases place with
    | zero =>
      obtain rfl := Option.some.inj get
      cases first with
      | label l => exact ⟨List.forall_mem_nil _, List.forall_mem_nil _⟩
      | _ => exact ⟨follow.1.mentions, follow.1.jumps⟩
    | succ place => exact ih follow.2 get

/-- Behind a statement no more is assigned than in front of it, but for what it declares. -/
theorem assignedAt_next {code : List Stmt} {before : Var → Prop}
    (follow : AllFollow atLabel exempt before code) {place : Nat} {s : Stmt}
    (get : code[place]? = some s) (goesOn : s.isTerminator = false) {v : Var}
    (isAssigned : assignedAt atLabel before code (place + 1) v) :
    assignedAt atLabel before code place v ∨ ∃ e, s = .declare v e := by
  induction code generalizing before place with
  | nil => contradiction
  | cons first code ih =>
    cases place with
    | zero =>
      obtain rfl := Option.some.inj get
      have behind : first.assigns atLabel before v := assignedAt_zero follow.2 isAssigned
      cases first with
      | declare w e =>
        rcases behind with old | rfl
        · exact .inl old
        · exact .inr ⟨e, rfl⟩
      | goto l => contradiction
      | ret value => contradiction
      | _ => exact .inl behind
    | succ place => exact ih follow.2 get isAssigned

theorem labelPlaceFrom?_get {l : Label} {start found : Nat} {code : List Stmt}
    (given : labelPlaceFrom? l start code = some found) :
    ∃ place k, found = start + place ∧ code[place]? = some (.label k) ∧ k.id = l.id := by
  induction code generalizing start with
  | nil => contradiction
  | cons s code ih =>
    simp only [labelPlaceFrom?] at given
    split at given
    next later rest =>
      obtain rfl := Option.some.inj given
      obtain ⟨place, k, rfl, get, same⟩ := ih rest
      exact ⟨place + 1, k, by omega, get, same⟩
    next =>
      split at given
      next defines =>
        obtain rfl := Option.some.inj given
        have isLabel := Stmt.defines_iff.1 defines
        cases s with
        | label k => exact ⟨0, k, rfl, rfl, Option.some.inj isLabel⟩
        | _ => contradiction
      next => contradiction

/-- Among marks for different labels, what holds of all marks for a label holds of the one there is. -/
theorem forall_marks_iff {α : Type} {marks : List (Nat × α)} (once : (marks.map Prod.fst).Nodup)
    {m : Nat × α} (member : m ∈ marks) {P : α → Prop} :
    (∀ other ∈ marks, other.1 = m.1 → P other.2) ↔ P m.2 := by
  refine ⟨fun all => all m member rfl, fun holds other member' same => ?_⟩
  rwa [List.inj_on_of_nodup_map once member' member same]

namespace Body

theorem labelPlace?_get {body : Body} {l : Label} {place : Nat}
    (given : body.labelPlace? l = some place) :
    ∃ k, body[place]? = some (.label k) ∧ k.id = l.id := by
  obtain ⟨_, k, rfl, get, same⟩ := labelPlaceFrom?_get given
  exact ⟨k, by simpa using get, same⟩

theorem AssignedAt.of_follow {body : Body} {parameters : List Var}
    (follow : AllFollow atLabel exempt (· ∈ parameters) body) :
    body.AssignedAt exempt parameters (assignedAt atLabel (· ∈ parameters) body) := by
  refine ⟨fun v => assignedAt_zero follow, fun place s get => (assignedAt_follows follow get).1, ?_⟩
  intro place target s get leads v isAssigned
  have jump {l : Label} (isTarget : l ∈ s.targets) (found : body.labelPlace? l = some target) :
      assignedAt atLabel (· ∈ parameters) body place v := by
    obtain ⟨k, isLabel, same⟩ := labelPlace?_get found
    rw [assignedAt_label isLabel, same] at isAssigned
    exact (assignedAt_follows follow get).2 l isTarget v isAssigned
  have next (goesOn : s.isTerminator = false) (isNext : target = place + 1) :
      assignedAt atLabel (· ∈ parameters) body place v ∨ ∃ e, s = .declare v e :=
    assignedAt_next follow get goesOn (isNext ▸ isAssigned)
  cases s with
  | goto l => exact .inl (jump List.mem_cons_self leads)
  | gotoIf l c value =>
    rcases leads with found | isNext
    · exact .inl (jump List.mem_cons_self found)
    · exact next rfl isNext
  | ret value => exact leads.elim
  | _ => exact next rfl leads

/-- What is assigned at places of a body is assigned at the same places without its unreachable
code. -/
theorem AssignedAt.removeUnreachable {body : Body} {parameters : List Var}
    {assigned : Nat → Var → Prop} (isAssigned : body.AssignedAt exempt parameters assigned) :
    body.removeUnreachable.AssignedAt exempt parameters
      fun place v => ∀ i, body.Aligned i place → assigned i v := by
  refine ⟨fun v all => isAssigned.start v (all 0 (aligned_start body)), ?_, ?_⟩
  · intro place s get v member
    by_cases isExempt : exempt v
    · exact .inl isExempt
    · refine .inr fun i aligned => ?_
      exact (isAssigned.mentions i s (aligned.get.trans get) v member).resolve_left isExempt
  · intro place target s get leads v all
    by_cases declares : ∃ e, s = .declare v e
    · exact .inr declares
    · refine .inl fun i aligned => ?_
      have get' := aligned.get.trans get
      obtain ⟨i', aligned', s', stands, leads'⟩ := aligned.leads_back ⟨s, get, leads⟩
      obtain rfl := Option.some.inj (get'.symm.trans stands)
      exact (isAssigned.leads i i' s get' leads' v (all i' aligned')).resolve_right declares

/-- A lowered body mentions what is assigned, if the bound one mentions what is in scope. -/
theorem lower_assignedAt {S : Var → Prop} {parameters : List Var} {body : Body} {n : Nat}
    (inScope : Stmt.AllScoped S body) (known : ∀ v, S v → exempt v ∨ v ∈ parameters)
    (bare : ∀ v ∈ Stmt.bareOf body, exempt v) (jumps : Stmt.AllJumpWithin [] body)
    (below : ∀ l ∈ Stmt.ownLabelsOf body, l < n) (nodup : (Stmt.ownLabelsOf body).Nodup)
    (returns : Ty) :
    ∃ assigned, (body.lower returns n).1.AssignedAt exempt parameters assigned := by
  -- Each label stands at one place, so there is one mark for it.
  have once : ((Stmt.marksOf (· ∈ parameters) body n).map Prod.fst).Nodup := by
    rw [Stmt.marksOf_keys]
    exact (Stmt.lowerAll_definesOnce body n below nodup).nodup
  let atLabel (id : Nat) (v : Var) : Prop :=
    ∀ m ∈ Stmt.marksOf (· ∈ parameters) body n, m.1 = id → m.2 v
  have agrees : ∀ m ∈ Stmt.marksOf (· ∈ parameters) body n, ∀ v, atLabel m.1 v ↔ m.2 v :=
    fun m member v => forall_marks_iff once member (P := (· v))
  have covers := Stmt.lowerAll_covers body n inScope known bare jumps (List.forall_mem_nil _) agrees
  have closed : Covers atLabel exempt (· ∈ parameters) (body.lower returns n).1 fun _ => False := by
    show Covers atLabel exempt (· ∈ parameters) (close returns (Stmt.lowerAll body n).1) _
    unfold close
    split
    · exact covers.append (.ret (List.forall_mem_nil _))
    · exact covers.weaken (fun _ => id) fun _ => False.elim
  exact ⟨_, .of_follow (closed _ fun _ => id).1⟩

end Body

end

/-- The variables that the units declare for all functions, and those declared bare in a body. They
are in scope where nothing has been assigned to them yet. -/
def Unsettled (bound : List BoundUnit) (v : Var) : Prop :=
  ∃ b ∈ bound, v ∈ b.declarations.vars ∨ ∃ p ∈ b.bodies, v ∈ Stmt.bareOf p.2

/-- The code of a function mentions variables only where they are assigned, if its parameters are
assigned at its start. -/
def MentionsAssigned (exempt : Var → Prop) (p : Fn × Body) : Prop :=
  ∃ assigned, p.2.AssignedAt exempt p.1.parameters assigned

namespace Compilation

theorem lowerBodies_mentionsAssigned {options : Options} {file : Option String} {u : Source.Unit}
    {exempt : Var → Prop} {bound : List (Fn × Body)} {n : Nat}
    (inScope : ∀ p ∈ bound, Stmt.AllScoped (fun v => exempt v ∨ v ∈ p.1.parameters) p.2)
    (bare : ∀ p ∈ bound, ∀ v ∈ Stmt.bareOf p.2, exempt v)
    (jumps : ∀ p ∈ bound, Stmt.AllJumpWithin [] p.2)
    (labels : ∀ p ∈ bound, (∀ l ∈ Stmt.ownLabelsOf p.2, l < n) ∧ (Stmt.ownLabelsOf p.2).Nodup) :
    ∀ q ∈ (lowerBodies options file u bound n).1.1, MentionsAssigned exempt q := by
  intro q member
  obtain ⟨p, isBound, lowers⟩ := exists_lowersTo member
  obtain ⟨below, nodup⟩ := labels p isBound
  have mentions : ∃ assigned, q.2.AssignedAt exempt p.1.parameters assigned := by
    refine lowers.holds (P := fun code => ∃ assigned, code.AssignedAt exempt p.1.parameters assigned)
      (fun k above _ => ?_) fun code isAssigned => ?_
    · exact Body.lower_assignedAt (inScope p isBound) (fun _ => id) (bare p isBound) (jumps p isBound)
        (fun l own => Nat.lt_of_lt_of_le (below l own) above) nodup p.1.returns
    · obtain ⟨assigned, isAssigned⟩ := isAssigned
      exact ⟨_, isAssigned.removeUnreachable⟩
  unfold MentionsAssigned
  rwa [lowers.same]

/-- The labels that a unit brings along are told apart, and no later ones are among them. -/
theorem bindUnit_labels (scriptMode : Bool) (file : Option String) (history : List Declarations)
    (u : Source.Unit) (next : Nat) :
    ∀ p ∈ (bindUnit scriptMode file history u next).1.bodies,
      (∀ l ∈ Stmt.ownLabelsOf p.2, l < (bindUnit scriptMode file history u next).2) ∧
        (Stmt.ownLabelsOf p.2).Nodup := by
  intro p member
  have minted := bindUnit_minted (.nil (Nat.le_refl next)) scriptMode file history u
  have own := minted.sublist (List.sublist_flatten_of_mem (List.mem_map_of_mem member))
  exact ⟨fun l isOwn => (own.within l isOwn).2, own.nodup⟩

/-- Units in a row are compiled to code that mentions variables where they are assigned. -/
theorem compileAll_mentionsAssigned {options : Options} {exempt : Var → Prop} (us : List Source.Unit)
    {history : List Declarations} {earlier : List Bodies} {next : Nat}
    (vars : ∀ d ∈ history, ∀ v ∈ d.vars, exempt v)
    (unsettled : ∀ v, Unsettled (boundAll options history earlier us next) v → exempt v) :
    ∀ c ∈ (compileAll options history earlier us next).1, ∀ q ∈ c.program.bodies,
      MentionsAssigned exempt q := by
  induction us generalizing history earlier next with
  | nil => exact List.forall_mem_nil _
  | cons u us ih =>
    have declared : ∀ v ∈ (bindUnit options.scriptMode options.file history u next).1.declarations.vars,
        exempt v := fun v isDeclared => unsettled v ⟨_, List.mem_cons_self, .inl isDeclared⟩
    have inScope := bindUnit_scoped vars options.scriptMode options.file u next
    refine List.forall_mem_cons.2 ⟨?_, ih (List.forall_mem_cons.2 ⟨declared, vars⟩) ?_⟩
    · refine lowerBodies_mentionsAssigned (fun p member => ?_) (fun p member v isBare => ?_)
        (bindUnit_tracked_anyway options.scriptMode options.file u).jumps
        (bindUnit_labels options.scriptMode options.file history u next)
      · exact (inScope p member).mono fun v isKnown =>
          isKnown.imp_left fun isKnown => isKnown.elim id (declared v)
      · exact unsettled v ⟨_, List.mem_cons_self, .inr ⟨p, member, isBare⟩⟩
    · rintro v ⟨b, member, isUnsettled⟩
      exact unsettled v ⟨b, List.mem_cons_of_mem _ member, isUnsettled⟩

end Compilation

end ScriptLang
