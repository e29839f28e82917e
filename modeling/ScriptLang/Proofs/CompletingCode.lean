import ScriptLang.Proofs.BindingConstants
import ScriptLang.Proofs.LoweringLabels
import ScriptLang.Proofs.ReachedPlaces

/-! Control that comes to a statement leaves it behind the statement, or by a jump to a label of a loop
around it. Which of these is possible is read off the structure of the statement and the conditions
of known value in it. The flat code has a way along its places for each of them. -/

namespace ScriptLang

/-- The condition is not known to have the other value. -/
def Expr.mayBe (c : Expr) (value : Bool) : Bool := c.constantBool? != some (!value)

theorem Expr.mayBe_of_unknown {c : Expr} (unknown : c.constant? = none) (value : Bool) :
    c.mayBe value = true := by
  simp [mayBe, constantBool?, unknown]

/-- The test of a `for` loop is not known ahead of time. -/
theorem Expr.unknown_of_compares {v : Var} (unknown : v.constant = none) (upper : Var) :
    (Expr.binary (.var v) .intLessOrEquals (.var upper)).constant? = none := by
  have undecided : decisive? BinaryOp.intLessOrEquals.action = none := rfl
  simp [constant?, foldBinary, undecided, unknown]

namespace Stmt

mutual

/-- Control that comes to the statement can come behind it. A loop that tests its condition first
is left when the condition fails or by `break`; one that tests it last comes to the test behind its
body or by `continue`. A `for` loop is always left at its upper bound. -/
def completes : Stmt → Bool
  | block body => allComplete body
  | ifThen c t => (c.mayBe true && t.completes) || c.mayBe false
  | ifElse c t e => (c.mayBe true && t.completes) || (c.mayBe false && e.completes)
  | whileDo c body labels => c.mayBe false || (c.mayBe true && body.jumpsTo labels.onBreak)
  | doWhile body c labels =>
    body.jumpsTo labels.onBreak ||
      ((body.completes || body.jumpsTo labels.onContinue) && c.mayBe false)
  | forIn _ _ _ _ | declare _ _ | expr _ | label _ => true
  | gotoIf _ c value => c.mayBe (!value)
  | goto _ | ret _ => false

/-- Control that comes to the statement can come to a jump in it to the label. -/
def jumpsTo : Stmt → Label → Bool
  | block body, l => anyJumpsTo body l
  | ifThen c t, l => c.mayBe true && t.jumpsTo l
  | ifElse c t e, l => (c.mayBe true && t.jumpsTo l) || (c.mayBe false && e.jumpsTo l)
  | whileDo c body _, l => c.mayBe true && body.jumpsTo l
  | doWhile body _ _, l | forIn _ _ body _, l => body.jumpsTo l
  | goto k, l => decide (k = l)
  | gotoIf k c value, l => c.mayBe value && decide (k = l)
  | declare _ _, _ | expr _, _ | label _, _ | ret _, _ => false

def allComplete : List Stmt → Bool
  | [] => true
  | s :: ss => s.completes && allComplete ss

def anyJumpsTo : List Stmt → Label → Bool
  | [], _ => false
  | s :: ss, l => s.jumpsTo l || (s.completes && anyJumpsTo ss l)

end

end Stmt

abbrev Body.Way (body : Body) : Nat → Nat → Prop := Relation.ReflTransGen body.LeadsTo

section

variable {body : Body} {i : Nat} {code : List Stmt}

theorem CodeAt.way_next {s : Stmt} (stands : CodeAt body i (s :: code))
    (goesOn : s.isTerminator = false) : body.Way i (i + 1) :=
  .single ⟨s, stands.get, Body.leadsTo_next_of_not_isTerminator goesOn⟩

theorem CodeAt.way_goto {l : Label} (stands : CodeAt body i (.goto l :: code)) {place : Nat}
    (found : body.labelPlace? l = some place) : body.Way i place :=
  .single ⟨_, stands.get, found⟩

/-- A jump on a condition leads to its label, and behind it, where the condition allows this. -/
theorem jumpIf_way {l : Label} {c : Expr} {value : Bool} (stands : CodeAt body i (jumpIf l c value)) :
    (c.mayBe value = true → ∀ place, body.labelPlace? l = some place → body.Way i place) ∧
    (c.mayBe (!value) = true → body.Way i (i + (jumpIf l c value).length)) := by
  unfold jumpIf Expr.mayBe at *
  cases known : c.constantBool? with
  | none =>
    simp only [known] at stands
    exact ⟨fun _ place found => .single ⟨_, stands.get, .inl found⟩, fun _ => stands.way_next rfl⟩
  | some b =>
    by_cases same : b = value
    · simp only [known, if_pos same] at stands
      exact ⟨fun _ place => stands.way_goto, by simp [same]⟩
    · have other : b = !value := by cases b <;> cases value <;> simp at same ⊢
      exact ⟨by simp [other], fun _ => by simp [if_neg same, Relation.ReflTransGen.refl]⟩

/-- A loop that tests its condition first: control comes to its code or behind it where the condition
allows this, and from the label for `break` it comes behind it. -/
theorem loopCode_way (once : (definitions body).Nodup) {l : Label} {labels : LoopLabels} {c : Expr}
    (stands : CodeAt body i (loopCode l labels c code)) :
    (∃ front, CodeAt body front code ∧ (c.mayBe true = true → body.Way i front)) ∧
    (c.mayBe false = true → body.Way i (i + (loopCode l labels c code).length)) ∧
    ∃ place, body.labelPlace? labels.onBreak = some place ∧
      body.Way place (i + (loopCode l labels c code).length) := by
  unfold loopCode at stands ⊢
  have atBreak := stands.right
  have atTest := stands.left.right
  have atContinue := stands.left.left.right
  have front := stands.left.left.left.left
  have toTest := front.way_goto (atContinue.labelPlace? once rfl)
  have toTest := toTest.trans (atContinue.way_next rfl)
  obtain ⟨again, leave⟩ := jumpIf_way atTest
  have behind := atBreak.way_next rfl
  simp only [List.length_append, List.length_cons, List.length_nil, ← Nat.add_assoc] at *
  refine ⟨⟨_, stands.left.left.left.right, fun may => ?_⟩, fun may => ?_, _,
    atBreak.labelPlace? once rfl, behind⟩
  · have toBody := toTest.trans (again may _ (front.tail.labelPlace? once rfl))
    exact toBody.trans (front.tail.way_next rfl)
  · exact (toTest.trans (leave may)).trans behind

end

namespace Stmt

/-- Control that comes to code of the length at the place has a way behind it if it may complete, and
one to each label of the jumps. -/
abbrev Ways (body : Body) (i length : Nat) (completes : Bool) (jumps : Label → Bool) : Prop :=
  (completes = true → body.Way i (i + length)) ∧
    ∀ l place, jumps l = true → body.labelPlace? l = some place → body.Way i place

section

variable {body : Body} {i n : Nat} {c : Expr}

theorem ifThen_way (once : (definitions body).Nodup) {t : Stmt}
    (inner : ∀ j, CodeAt body j (t.lower (n + 1)).1 →
      Ways body j (t.lower (n + 1)).1.length t.completes t.jumpsTo)
    (stands : CodeAt body i ((ifThen c t).lower n).1) :
    Ways body i ((ifThen c t).lower n).1.length (ifThen c t).completes (ifThen c t).jumpsTo := by
  rw [lower_ifThen] at stands ⊢
  obtain ⟨skip, enter⟩ := jumpIf_way stands.left.left
  obtain ⟨behind, jumps⟩ := inner _ stands.left.right
  have atEnd := stands.right
  have leave := atEnd.way_next rfl
  simp only [Ways, List.length_append, List.length_cons, List.length_nil, ← Nat.add_assoc] at *
  simp only [completes, jumpsTo, Bool.or_eq_true, Bool.and_eq_true]
  constructor
  · rintro (⟨may, completes⟩ | may)
    · exact ((enter may).trans (behind completes)).trans leave
    · exact (skip may _ (atEnd.labelPlace? once rfl)).trans leave
  · rintro l place ⟨may, jumpsT⟩ found
    exact (enter may).trans (jumps l place jumpsT found)

theorem ifElse_way (once : (definitions body).Nodup) {t e : Stmt}
    (first : ∀ j, CodeAt body j (t.lower (n + 2)).1 →
      Ways body j (t.lower (n + 2)).1.length t.completes t.jumpsTo)
    (second : ∀ j, CodeAt body j (e.lower (t.lower (n + 2)).2).1 →
      Ways body j (e.lower (t.lower (n + 2)).2).1.length e.completes e.jumpsTo)
    (stands : CodeAt body i ((ifElse c t e).lower n).1) :
    Ways body i ((ifElse c t e).lower n).1.length (ifElse c t e).completes (ifElse c t e).jumpsTo := by
  rw [lower_ifElse] at stands ⊢
  have atEnd := stands.right
  have atGoto := stands.left.left.right
  obtain ⟨toElse, enter⟩ := jumpIf_way stands.left.left.left.left
  obtain ⟨behind, jumps⟩ := first _ stands.left.left.left.right
  obtain ⟨behind', jumps'⟩ := second _ stands.left.right
  have leave := atEnd.way_next rfl
  have otherwise (may : c.mayBe false = true) :=
    (toElse may _ (atGoto.tail.labelPlace? once rfl)).trans (atGoto.tail.way_next rfl)
  simp only [Ways, List.length_append, List.length_cons, List.length_nil, ← Nat.add_assoc] at *
  simp only [completes, jumpsTo, Bool.or_eq_true, Bool.and_eq_true]
  constructor
  · rintro (⟨may, completes⟩ | ⟨may, completes⟩)
    · have toGoto := (enter may).trans (behind completes)
      exact (toGoto.trans (atGoto.way_goto (atEnd.labelPlace? once rfl))).trans leave
    · exact ((otherwise may).trans (behind' completes)).trans leave
  · rintro l place (⟨may, jumpsT⟩ | ⟨may, jumpsE⟩) found
    · exact (enter may).trans (jumps l place jumpsT found)
    · exact (otherwise may).trans (jumps' l place jumpsE found)

theorem whileDo_way (once : (definitions body).Nodup) {inside : Stmt} {labels : LoopLabels}
    (inner : ∀ j, CodeAt body j (inside.lower (n + 1)).1 →
      Ways body j (inside.lower (n + 1)).1.length inside.completes inside.jumpsTo)
    (stands : CodeAt body i ((whileDo c inside labels).lower n).1) :
    Ways body i ((whileDo c inside labels).lower n).1.length (whileDo c inside labels).completes
      (whileDo c inside labels).jumpsTo := by
  rw [lower_whileDo] at stands ⊢
  obtain ⟨⟨front, atBody, enter⟩, leave, atBreak, found, behind⟩ := loopCode_way once stands
  obtain ⟨_, jumps⟩ := inner _ atBody
  simp only [Ways, completes, jumpsTo, Bool.or_eq_true, Bool.and_eq_true]
  constructor
  · rintro (may | ⟨may, breaks⟩)
    · exact leave may
    · exact ((enter may).trans (jumps _ _ breaks found)).trans behind
  · rintro l place ⟨may, jumpsB⟩ found
    exact (enter may).trans (jumps l place jumpsB found)

theorem doWhile_way (once : (definitions body).Nodup) {inside : Stmt} {labels : LoopLabels}
    (inner : ∀ j, CodeAt body j (inside.lower (n + 1)).1 →
      Ways body j (inside.lower (n + 1)).1.length inside.completes inside.jumpsTo)
    (stands : CodeAt body i ((doWhile inside c labels).lower n).1) :
    Ways body i ((doWhile inside c labels).lower n).1.length (doWhile inside c labels).completes
      (doWhile inside c labels).jumpsTo := by
  rw [lower_doWhile] at stands ⊢
  have atBreak := stands.right
  have atContinue := stands.left.left.right
  have front := stands.left.left.left.left
  obtain ⟨_, leave⟩ := jumpIf_way stands.left.right
  obtain ⟨behind, jumps⟩ := inner _ stands.left.left.left.right
  have enter := front.way_next rfl
  have test := atContinue.way_next rfl
  have toEnd := atBreak.way_next rfl
  have onBreak := atBreak.labelPlace? once (k := labels.onBreak) rfl
  have onContinue := atContinue.labelPlace? once (k := labels.onContinue) rfl
  simp only [Ways, List.length_append, List.length_cons, List.length_nil, ← Nat.add_assoc] at *
  simp only [completes, jumpsTo, Bool.or_eq_true, Bool.and_eq_true]
  constructor
  · rintro (breaks | ⟨completes | continues, may⟩)
    · exact (enter.trans (jumps _ _ breaks onBreak)).trans toEnd
    · exact (((enter.trans (behind completes)).trans test).trans (leave may)).trans toEnd
    · exact (((enter.trans (jumps _ _ continues onContinue)).trans test).trans (leave may)).trans
        toEnd
  · exact fun l place jumpsB found => enter.trans (jumps l place jumpsB found)

theorem forIn_way (once : (definitions body).Nodup) {v : Var} {range : Expr} {inside : Stmt}
    {labels : LoopLabels} (unknown : v.constant = none)
    (inner : ∀ j, CodeAt body j (inside.lower (n + 3)).1 →
      Ways body j (inside.lower (n + 3)).1.length inside.completes inside.jumpsTo)
    (stands : CodeAt body i ((forIn v range inside labels).lower n).1) :
    Ways body i ((forIn v range inside labels).lower n).1.length
      (forIn v range inside labels).completes (forIn v range inside labels).jumpsTo := by
  rw [lower_forIn] at stands ⊢
  obtain ⟨⟨front, atBody, enter⟩, leave, _⟩ := loopCode_way once stands.right
  obtain ⟨_, jumps⟩ := inner _ atBody.left
  have bounds := (stands.left.way_next rfl).trans (stands.left.tail.way_next rfl)
  have may := Expr.mayBe_of_unknown (Expr.unknown_of_compares unknown (upperBound v n))
  simp only [Ways, List.length_append, List.length_cons, List.length_nil, ← Nat.add_assoc] at *
  refine ⟨fun _ => bounds.trans (leave (may false)), fun l place jumpsB found => ?_⟩
  exact (bounds.trans (enter (may true))).trans (jumps l place jumpsB found)

theorem gotoIf_way {l : Label} {value : Bool} (stands : CodeAt body i (jumpIf l c value)) :
    Ways body i (jumpIf l c value).length (gotoIf l c value).completes (gotoIf l c value).jumpsTo := by
  obtain ⟨jumps, behind⟩ := jumpIf_way stands
  refine ⟨behind, fun k place jumps' found => ?_⟩
  simp only [jumpsTo, Bool.and_eq_true, decide_eq_true_eq] at jumps'
  obtain ⟨may, rfl⟩ := jumps'
  exact jumps may place found

end

mutual

/-- The flat code of a statement has a way behind it if the statement can complete, and one to each
label to which the statement can jump. -/
theorem lower_way {body : Body} (once : (definitions body).Nodup) (s : Stmt) (n : Nat) {i : Nat}
    (records : s.RecordsConstants) (stands : CodeAt body i (s.lower n).1) :
    Ways body i (s.lower n).1.length s.completes s.jumpsTo := by
  cases s with
  | block inside => exact lowerAll_way once inside n records stands
  | ifThen c t => exact ifThen_way once (fun _ => lower_way once t (n + 1) records) stands
  | ifElse c t e =>
    exact ifElse_way once (fun _ => lower_way once t (n + 2) records.1)
      (fun _ => lower_way once e (t.lower (n + 2)).2 records.2) stands
  | whileDo c inside labels =>
    exact whileDo_way once (fun _ => lower_way once inside (n + 1) records) stands
  | doWhile inside c labels =>
    exact doWhile_way once (fun _ => lower_way once inside (n + 1) records) stands
  | forIn v range inside labels =>
    exact forIn_way once records.1 (fun _ => lower_way once inside (n + 3) records.2) stands
  | goto k =>
    refine ⟨fun completes => by contradiction, fun l place jumps found => ?_⟩
    obtain rfl := of_decide_eq_true jumps
    exact stands.way_goto found
  | gotoIf k c value => exact gotoIf_way stands
  | ret value => exact ⟨fun completes => by contradiction, fun l place jumps => by contradiction⟩
  | _ => exact ⟨fun _ => stands.way_next rfl, fun l place jumps => by contradiction⟩

theorem lowerAll_way {body : Body} (once : (definitions body).Nodup) (ss : List Stmt) (n : Nat)
    {i : Nat} (records : AllRecordConstants ss) (stands : CodeAt body i (lowerAll ss n).1) :
    Ways body i (lowerAll ss n).1.length (allComplete ss) (anyJumpsTo ss) := by
  cases ss with
  | nil => exact ⟨fun _ => .refl, fun l place jumps => by contradiction⟩
  | cons s ss =>
    rw [lowerAll_cons] at stands ⊢
    obtain ⟨behind, jumps⟩ := lower_way once s n records.1 stands.left
    obtain ⟨behind', jumps'⟩ := lowerAll_way once ss (s.lower n).2 records.2 stands.right
    simp only [Ways, List.length_append, ← Nat.add_assoc] at *
    simp only [allComplete, anyJumpsTo, Bool.or_eq_true, Bool.and_eq_true]
    constructor
    · rintro ⟨completes, rest⟩
      exact (behind completes).trans (behind' rest)
    · rintro l place (here | ⟨completes, later⟩) found
      · exact jumps l place here found
      · exact (behind completes).trans (jumps' l place later found)

end

end Stmt

end ScriptLang
