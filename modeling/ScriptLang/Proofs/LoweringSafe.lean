import ScriptLang.Proofs.BindingSymbols
import ScriptLang.Proofs.EmittedCode
import ScriptLang.Proofs.SafeCode
import ScriptLang.Proofs.Structured

/-! The flat code of a well-typed statement is well typed. It mentions what the statement
mentions and new variables, and its jumps lead to labels in it, or to loops around it. -/

namespace ScriptLang

namespace Expr

variable {assignable : Var → Prop}

mutual

theorem WellTyped.weaken {e : Expr} (typed : e.WellTyped assignable) :
    e.WellTyped fun _ => True := by
  cases e with
  | error | range => exact typed.elim
  | literal | var => exact typed
  | assign v e =>
    obtain ⟨_, known, same, hasValue, inner⟩ := typed
    exact ⟨trivial, known, same, hasValue, inner.weaken⟩
  | unary op e => exact ⟨typed.1, typed.2.1, typed.2.2.weaken⟩
  | binary l op r =>
    obtain ⟨member, left, right⟩ := typed
    exact ⟨member, ⟨left.1, left.2.weaken⟩, right.1, right.2.weaken⟩
  | call f args => exact ⟨typed.1, ArgsFit.weaken typed.2⟩
  | convert t e => exact ⟨typed.1, typed.2.1, typed.2.2.1, typed.2.2.2.weaken⟩

theorem ArgsFit.weaken {es : List Expr} {ps : List Var} (fit : ArgsFit assignable es ps) :
    ArgsFit (fun _ => True) es ps := by
  cases es with
  | nil => cases ps <;> exact fit
  | cons e es =>
    cases ps with
    | nil => exact fit
    | cons p ps =>
      obtain ⟨⟨same, hasValue, typed⟩, rest⟩ := fit
      exact ⟨⟨same, hasValue, typed.weaken⟩, ArgsFit.weaken rest⟩

end

theorem Fits.weaken {t : Ty} {e : Expr} (fits : e.Fits assignable t) : e.Fits (fun _ => True) t :=
  ⟨fits.ty, fits.hasValue, fits.wellTyped.weaken⟩

end Expr

section

variable {known : Var → Prop} {callable : Fn → Prop} {returns : Ty}

theorem Stmt.safe_label (l : Label) : (label l).Safe known callable returns :=
  ⟨rfl, trivial, nofun, nofun⟩

theorem Stmt.safe_goto (l : Label) : (goto l).Safe known callable returns :=
  ⟨rfl, trivial, nofun, nofun⟩

theorem Stmt.safe_declare {v : Var} {e : Expr} (wellTyped : v.WellTyped)
    (fits : e.Fits (fun _ => True) v.ty) (vars : ∀ w ∈ v :: e.vars, known w)
    (calls : ∀ f ∈ e.calls, callable f) : (declare v e).Safe known callable returns :=
  ⟨rfl, ⟨wellTyped, fits⟩, vars, calls⟩

theorem Stmt.safe_jumps : OfJumps fun s => s.Safe known callable returns := ⟨safe_label, safe_goto⟩

theorem Stmt.safe_tests {c : Expr} (fits : c.Fits (fun _ => True) .bool)
    (vars : ∀ v ∈ c.vars, known v) (calls : ∀ f ∈ c.calls, callable f) :
    OfTests (fun s => s.Safe known callable returns) c := fun _ _ => ⟨rfl, fits, vars, calls⟩

/-- An integer variable whose value is not known ahead of time. -/
theorem Var.wellTyped_int {v : Var} (isInt : v.ty = .int) (unknown : v.constant = none) :
    v.WellTyped := by
  constructor
  · rw [isInt]
    decide
  · intro value given
    rw [unknown] at given
    contradiction

theorem Expr.compare_fits {v u : Var} (op : BinaryOp) (member : op ∈ BinaryOp.table)
    (left : op.left = .int) (right : op.right = .int) (result : op.result = .bool)
    (isInt : v.ty = .int) (isInt' : u.ty = .int) (wellTyped : v.WellTyped) (wellTyped' : u.WellTyped) :
    (binary (.var v) op (.var u)).Fits (fun _ => True) .bool := by
  refine ⟨result, ?_, member, ⟨?_, wellTyped⟩, ?_, wellTyped'⟩
  · simp [ty, result]
  · exact isInt.trans left.symm
  · exact isInt'.trans right.symm

theorem Expr.increment_fits {v : Var} (isInt : v.ty = .int) (wellTyped : v.WellTyped) :
    (assign v (.binary (.var v) .intAddition (.literal (.int 1)))).WellTyped fun _ => True := by
  refine ⟨trivial, wellTyped, isInt.symm, ?_, by decide, ⟨isInt, wellTyped⟩, rfl, trivial⟩
  exact (@BinaryOp.result_of_mem .intAddition (by decide)).2.2.2.2

/-- What a `for` loop emits besides its body is safe. -/
theorem counting_safe {v u : Var} {lower upper : Expr} (isInt : v.ty = .int) (isInt' : u.ty = .int)
    (unknown : v.constant = none) (unknown' : u.constant = none) (isKnown : known v)
    (isKnown' : known u) (fits : lower.Fits (fun _ => True) .int)
    (fits' : upper.Fits (fun _ => True) .int) (vars : ∀ w ∈ lower.vars ++ upper.vars, known w)
    (calls : ∀ f ∈ lower.calls ++ upper.calls, callable f) :
    OfCounting (fun s => s.Safe known callable returns) v u (.range lower upper) := by
  obtain ⟨varsL, varsU⟩ := List.forall_mem_append.1 vars
  obtain ⟨callsL, callsU⟩ := List.forall_mem_append.1 calls
  have wellTyped := Var.wellTyped_int isInt unknown
  have wellTyped' := Var.wellTyped_int isInt' unknown'
  have compares (op : BinaryOp) (member : op ∈ BinaryOp.table) (left : op.left = .int)
      (right : op.right = .int) (result : op.result = .bool) :
      OfTests (fun s => s.Safe known callable returns) (.binary (.var v) op (.var u)) := by
    refine Stmt.safe_tests
      (Expr.compare_fits op member left right result isInt isInt' wellTyped wellTyped') ?_
      (List.forall_mem_nil _)
    simp [Expr.vars, isKnown, isKnown']
  refine ⟨?_, ?_, compares _ (by decide) rfl rfl rfl, compares _ (by decide) rfl rfl rfl, rfl, ?_, ?_,
    List.forall_mem_nil _⟩
  · exact Stmt.safe_declare wellTyped (isInt ▸ fits) (List.forall_mem_cons.2 ⟨isKnown, varsL⟩) callsL
  · exact Stmt.safe_declare wellTyped' (isInt' ▸ fits') (List.forall_mem_cons.2 ⟨isKnown', varsU⟩)
      callsU
  · exact Expr.increment_fits isInt wellTyped
  · simp [Stmt.vars, Expr.increment, Expr.vars, isKnown]

end

def GrowsSafe (known : Var → Prop) (callable : Fn → Prop) (returns : Ty) (code : List Stmt)
    (next : Nat) : Prop :=
  ∃ more : Var → Prop, (∀ v, known v → more v) ∧ Census Var.id more next ∧
    ∀ s ∈ code, s.Safe more callable returns

section

variable {callable : Fn → Prop} {target : Ty} {assignable : Var → Prop} {returns : Option Ty}

/-- A statement that lowering takes over as it is. -/
theorem GrowsSafe.one {known : Var → Prop} {n : Nat} {s : Stmt} (census : Census Var.id known n)
    (safe : s.Safe known callable target) : GrowsSafe known callable target [s] n :=
  ⟨known, fun _ => id, census, fun _ member => List.mem_singleton.1 member ▸ safe⟩

/-- Safe code stays so in a larger census. -/
theorem safe_more {known more : Var → Prop} {code : List Stmt} (wider : ∀ v, known v → more v)
    (safe : ∀ s ∈ code, s.Safe known callable target) : ∀ s ∈ code, s.Safe more callable target :=
  fun s member => (safe s member).mono wider fun _ => id

namespace Stmt

mutual

theorem lower_safe {known : Var → Prop} (s : Stmt) (n : Nat) (census : Census Var.id known n)
    (typed : s.WellTyped assignable returns) (same : ∀ t, returns = some t → t = target)
    (vars : ∀ v ∈ s.vars, known v) (calls : ∀ f ∈ s.calls, callable f) :
    GrowsSafe known callable target (s.lower n).1 (s.lower n).2 := by
  cases s with
  | block body => exact lowerAll_safe body n census typed same vars calls
  | declare v e =>
    exact .one census (safe_declare typed.1 typed.2.weaken vars calls)
  | ifThen c t =>
    obtain ⟨varsC, varsT⟩ := List.forall_mem_append.1 vars
    obtain ⟨callsC, callsT⟩ := List.forall_mem_append.1 calls
    obtain ⟨more, wider, census', safe⟩ := lower_safe t (n + 1) (census.le (Nat.le_succ n)) typed.2
      same varsT callsT
    rw [lower_ifThen]
    refine ⟨more, wider, census', ?_⟩
    simp only [List.forall_mem_append, List.forall_mem_cons, List.not_mem_nil, false_implies,
      implies_true, and_true]
    exact ⟨⟨safe_more wider (forall_mem_jumpIf safe_jumps (safe_tests typed.1.weaken varsC callsC) _),
      safe⟩, safe_label _⟩
  | ifElse c t e =>
    obtain ⟨varsCT, varsE⟩ := List.forall_mem_append.1 vars
    obtain ⟨varsC, varsT⟩ := List.forall_mem_append.1 varsCT
    obtain ⟨callsCT, callsE⟩ := List.forall_mem_append.1 calls
    obtain ⟨callsC, callsT⟩ := List.forall_mem_append.1 callsCT
    obtain ⟨more, wider, census', safe⟩ := lower_safe t (n + 2) (census.le (by omega)) typed.2.1
      same varsT callsT
    obtain ⟨most, wider', census'', safe'⟩ := lower_safe e (t.lower (n + 2)).2 census' typed.2.2
      same (fun v member => wider v (varsE v member)) callsE
    have widest (v : Var) (isKnown : known v) : most v := wider' v (wider v isKnown)
    rw [lower_ifElse]
    refine ⟨most, widest, census'', ?_⟩
    simp only [List.forall_mem_append, List.forall_mem_cons, List.not_mem_nil, false_implies,
      implies_true, and_true]
    exact ⟨⟨⟨⟨safe_more widest
        (forall_mem_jumpIf safe_jumps (safe_tests typed.1.weaken varsC callsC) _),
        safe_more wider' safe⟩,
      safe_goto _, safe_label _⟩, safe'⟩, safe_label _⟩
  | whileDo c body labels =>
    obtain ⟨varsC, varsB⟩ := List.forall_mem_append.1 vars
    obtain ⟨callsC, callsB⟩ := List.forall_mem_append.1 calls
    obtain ⟨more, wider, census', safe⟩ := lower_safe body (n + 1) (census.le (Nat.le_succ n))
      typed.2 same varsB callsB
    rw [lower_whileDo]
    exact ⟨more, wider, census', forall_mem_loopCode safe_jumps
      (safe_tests typed.1.weaken (fun v member => wider v (varsC v member)) callsC) safe⟩
  | doWhile body c labels =>
    obtain ⟨varsC, varsB⟩ := List.forall_mem_append.1 vars
    obtain ⟨callsC, callsB⟩ := List.forall_mem_append.1 calls
    obtain ⟨more, wider, census', safe⟩ := lower_safe body (n + 1) (census.le (Nat.le_succ n))
      typed.2 same varsB callsB
    rw [lower_doWhile]
    refine ⟨more, wider, census', ?_⟩
    simp only [List.forall_mem_append, List.forall_mem_cons, List.not_mem_nil, false_implies,
      implies_true, and_true]
    exact ⟨⟨⟨⟨safe_label _, safe⟩, safe_label _⟩,
      safe_more wider (forall_mem_jumpIf safe_jumps (safe_tests typed.1.weaken varsC callsC) _)⟩,
      safe_label _⟩
  | forIn v range body labels =>
    obtain ⟨⟨isInt, unknown⟩, ⟨lower, upper, rfl, fits, fits'⟩, typedB⟩ := typed
    obtain ⟨isKnown, varsRB⟩ := List.forall_mem_cons.1 vars
    obtain ⟨varsR, varsB⟩ := List.forall_mem_append.1 varsRB
    obtain ⟨callsR, callsB⟩ := List.forall_mem_append.1 calls
    have census' := (census.insert (v := upperBound v n) rfl).le (Nat.le_add_right (n + 1) 2)
    obtain ⟨more, wider, census'', safe⟩ := lower_safe body (n + 3) census' typedB same
      (fun w member => .inl (varsB w member)) callsB
    have old (w : Var) (isKnown : known w) : more w := wider w (.inl isKnown)
    rw [lower_forIn]
    have counts : OfCounting (fun s => s.Safe more callable target) v (upperBound v n)
        (.range lower upper) :=
      counting_safe isInt rfl unknown rfl (old v isKnown) (wider _ (.inr rfl)) fits.weaken
        fits'.weaken (fun w member => old w (varsR w member)) callsR
    exact ⟨more, old, census'', forall_mem_countingCode safe_jumps counts safe⟩
  | label l => exact .one census (safe_label l)
  | goto l => exact .one census (safe_goto l)
  | gotoIf l c value =>
    exact ⟨known, fun _ => id, census,
      forall_mem_jumpIf safe_jumps (safe_tests typed.weaken vars calls) value⟩
  | ret value =>
    refine .one census ⟨rfl, ?_, vars, calls⟩
    cases value with
    | none => exact congrArg some (same _ typed).symm
    | some e =>
      obtain ⟨t, isSome, fits⟩ := typed
      exact ⟨target, rfl, same t isSome ▸ fits.weaken⟩
  | expr e => exact .one census ⟨rfl, Expr.WellTyped.weaken typed, vars, calls⟩

theorem lowerAll_safe {known : Var → Prop} (ss : List Stmt) (n : Nat)
    (census : Census Var.id known n) (typed : AllWellTyped assignable returns ss)
    (same : ∀ t, returns = some t → t = target) (vars : ∀ v ∈ varsOf ss, known v)
    (calls : ∀ f ∈ callsOf ss, callable f) :
    GrowsSafe known callable target (lowerAll ss n).1 (lowerAll ss n).2 := by
  cases ss with
  | nil => exact ⟨known, fun _ => id, census, nofun⟩
  | cons s ss =>
    obtain ⟨varsS, varsSs⟩ := List.forall_mem_append.1 vars
    obtain ⟨callsS, callsSs⟩ := List.forall_mem_append.1 calls
    obtain ⟨more, wider, census', safe⟩ := lower_safe s n census typed.1 same varsS callsS
    obtain ⟨most, wider', census'', safe'⟩ := lowerAll_safe ss (s.lower n).2 census' typed.2 same
      (fun v member => wider v (varsSs v member)) callsSs
    rw [lowerAll_cons]
    exact ⟨most, fun v isKnown => wider' v (wider v isKnown), census'',
      List.forall_mem_append.2 ⟨safe_more wider' safe, safe'⟩⟩

end

end Stmt

end

def JumpsTo (reach : Nat → Prop) (code : List Stmt) : Prop :=
  ∀ s ∈ code, ∀ l ∈ s.targets, reach l.id

def DefinedOrOutside (code : List Stmt) (enclosing : List LoopLabels) (id : Nat) : Prop :=
  id ∈ definitions code ∨ ∃ k ∈ enclosing, id = k.onBreak.id ∨ id = k.onContinue.id

namespace JumpsTo

variable {reach wider : Nat → Prop} {code rest : List Stmt}

theorem mono (jumps : JumpsTo reach code) (more : ∀ id, reach id → wider id) :
    JumpsTo wider code := fun s member l target => more l.id (jumps s member l target)

theorem append (first : JumpsTo reach code) (second : JumpsTo reach rest) :
    JumpsTo reach (code ++ rest) := List.forall_mem_append.2 ⟨first, second⟩

theorem nil : JumpsTo reach [] := nofun

theorem none {s : Stmt} (noTargets : s.targets = []) (jumps : JumpsTo reach code) :
    JumpsTo reach (s :: code) :=
  List.forall_mem_cons.2 ⟨by simp [noTargets], jumps⟩

theorem goto {l : Label} (reached : reach l.id) (jumps : JumpsTo reach code) :
    JumpsTo reach (.goto l :: code) :=
  List.forall_mem_cons.2 ⟨by simp [Stmt.targets, reached], jumps⟩

theorem jumpIf {l : Label} (reached : reach l.id) (c : Expr) (value : Bool) :
    JumpsTo reach (jumpIf l c value) := by
  unfold ScriptLang.jumpIf
  split
  · split
    · exact .goto reached .nil
    · exact .nil
  · exact List.forall_mem_cons.2 ⟨by simp [Stmt.targets, reached], nil⟩

end JumpsTo

/-- What the body of a loop jumps to, as the code of the loop sees it. -/
theorem DefinedOrOutside.leave {code body : List Stmt} {enclosing : List LoopLabels}
    {labels : LoopLabels} (part : ∀ id ∈ definitions body, id ∈ definitions code)
    (onBreak : labels.onBreak.id ∈ definitions code)
    (onContinue : labels.onContinue.id ∈ definitions code) (id : Nat)
    (reached : DefinedOrOutside body (labels :: enclosing) id) :
    DefinedOrOutside code enclosing id := by
  rcases reached with defined | ⟨k, member, isLabel⟩
  · exact .inl (part id defined)
  · rcases List.mem_cons.1 member with rfl | outer
    · rcases isLabel with rfl | rfl
      · exact .inl onBreak
      · exact .inl onContinue
    · exact .inr ⟨k, outer, isLabel⟩

theorem DefinedOrOutside.part {code body : List Stmt} {enclosing : List LoopLabels}
    (part : ∀ id ∈ definitions body, id ∈ definitions code) (id : Nat)
    (reached : DefinedOrOutside body enclosing id) : DefinedOrOutside code enclosing id :=
  reached.imp_left (part id)

/-- A loop jumps to its own labels, and where its body does. -/
theorem loopCode_jumps {reach : Nat → Prop} {l : Label} {labels : LoopLabels} {c : Expr}
    {body : List Stmt} (onBody : reach l.id) (onContinue : reach labels.onContinue.id)
    (inner : JumpsTo reach body) : JumpsTo reach (loopCode l labels c body) := by
  have enter : JumpsTo reach [.goto labels.onContinue, .label l] :=
    .goto onContinue (.none rfl .nil)
  have test : JumpsTo reach [.label labels.onContinue] := .none rfl .nil
  have leave : JumpsTo reach [.label labels.onBreak] := .none rfl .nil
  exact (((enter.append inner).append test).append (.jumpIf onBody c true)).append leave

namespace Stmt

mutual

theorem lower_jumps (s : Stmt) (n : Nat) {enclosing : List LoopLabels}
    (jumps : s.JumpsWithin enclosing) :
    JumpsTo (DefinedOrOutside (s.lower n).1 enclosing) (s.lower n).1 := by
  cases s with
  | block body => exact lowerAll_jumps body n jumps
  | declare v e => exact .none rfl .nil
  | ifThen c t =>
    have inner := lower_jumps t (n + 1) jumps
    rw [lower_ifThen]
    refine .append (.append (.jumpIf (.inl ?_) c false) (inner.mono (.part ?_))) (.none rfl .nil)
    all_goals simp +contextual
  | ifElse c t e =>
    have first := lower_jumps t (n + 2) jumps.1
    have second := lower_jumps e (t.lower (n + 2)).2 jumps.2
    rw [lower_ifElse]
    have finish : JumpsTo (DefinedOrOutside (jumpIf ⟨n + 1, "else"⟩ c false ++
          (t.lower (n + 2)).1 ++ [goto ⟨n, "end"⟩, label ⟨n + 1, "else"⟩] ++
          (e.lower (t.lower (n + 2)).2).1 ++ [label ⟨n, "end"⟩]) enclosing)
        [goto ⟨n, "end"⟩, label ⟨n + 1, "else"⟩] :=
      .goto (.inl (by simp)) (.none rfl .nil)
    refine .append (.append (.append (.append (.jumpIf (.inl ?_) c false) (first.mono (.part ?_)))
      finish) (second.mono (.part ?_))) (.none rfl .nil)
    all_goals simp +contextual
  | whileDo c body labels =>
    have inner := lower_jumps body (n + 1) jumps
    rw [lower_whileDo]
    refine loopCode_jumps (.inl (by simp)) (.inl (by simp)) (inner.mono (.leave ?_ ?_ ?_))
    all_goals simp +contextual
  | doWhile body c labels =>
    have inner := lower_jumps body (n + 1) jumps
    rw [lower_doWhile]
    refine .append (.append (.append (.append (.none rfl .nil) (inner.mono (.leave ?_ ?_ ?_)))
      (.none rfl .nil)) (.jumpIf (.inl ?_) c true)) (.none rfl .nil)
    all_goals simp +contextual
  | forIn v range body labels =>
    have inner := lower_jumps body (n + 3) jumps
    rw [lower_forIn]
    refine .append (.none rfl (.none rfl .nil)) (loopCode_jumps (.inl (by simp)) (.inl (by simp))
      (.append (inner.mono (.leave ?_ ?_ ?_)) (.append (.append (.none rfl .nil)
        (.jumpIf (.inl ?_) _ true)) (.none rfl .nil))))
    all_goals simp +contextual
  | goto l =>
    obtain ⟨k, member, isLabel⟩ := jumps
    refine .goto (.inr ⟨k, member, ?_⟩) .nil
    rcases isLabel with rfl | rfl
    · exact .inl rfl
    · exact .inr rfl
  | label | gotoIf => exact jumps.elim
  | ret value => exact .none rfl .nil
  | expr e => exact .none rfl .nil

theorem lowerAll_jumps (ss : List Stmt) (n : Nat) {enclosing : List LoopLabels}
    (jumps : AllJumpWithin enclosing ss) :
    JumpsTo (DefinedOrOutside (lowerAll ss n).1 enclosing) (lowerAll ss n).1 := by
  cases ss with
  | nil => exact .nil
  | cons s ss =>
    have first := lower_jumps s n jumps.1
    have rest := lowerAll_jumps ss (s.lower n).2 jumps.2
    rw [lowerAll_cons]
    refine .append (first.mono (.part ?_)) (rest.mono (.part ?_))
    all_goals simp +contextual

end

end Stmt

end ScriptLang
