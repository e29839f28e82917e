import ScriptLang.Machine.Run

/-! The variables, functions and labels that stand in typed code, and the functions
that a program may come to call. -/

namespace ScriptLang

namespace Expr

mutual

def vars : Expr → List Var
  | error | literal _ => []
  | var v => [v]
  | assign v e => v :: e.vars
  | unary _ e | convert _ e => e.vars
  | binary l _ r | range l r => l.vars ++ r.vars
  | call _ args => varsOf args

def varsOf : List Expr → List Var
  | [] => []
  | e :: es => e.vars ++ varsOf es

end

mutual

def calls : Expr → List Fn
  | error | literal _ | var _ => []
  | assign _ e | unary _ e | convert _ e => e.calls
  | binary l _ r | range l r => l.calls ++ r.calls
  | call f args => f :: callsOf args

def callsOf : List Expr → List Fn
  | [] => []
  | e :: es => e.calls ++ callsOf es

end

mutual

def assigned : Expr → List Var
  | error | literal _ | var _ => []
  | assign v e => v :: e.assigned
  | unary _ e | convert _ e => e.assigned
  | binary l _ r | range l r => l.assigned ++ r.assigned
  | call _ args => assignedOf args

def assignedOf : List Expr → List Var
  | [] => []
  | e :: es => e.assigned ++ assignedOf es

end

mutual

theorem assigned_subset_vars (e : Expr) : e.assigned ⊆ e.vars := by
  cases e with
  | error | literal | var => exact List.nil_subset _
  | assign v e => exact List.cons_subset_cons v (assigned_subset_vars e)
  | unary op e => exact assigned_subset_vars e
  | convert t e => exact assigned_subset_vars e
  | binary l op r | range l r =>
    exact List.append_subset.2 ⟨List.subset_append_of_subset_left _ (assigned_subset_vars l),
      List.subset_append_of_subset_right _ (assigned_subset_vars r)⟩
  | call f args => exact assignedOf_subset_varsOf args

theorem assignedOf_subset_varsOf (es : List Expr) : assignedOf es ⊆ varsOf es := by
  cases es with
  | nil => exact List.nil_subset _
  | cons e es =>
    exact List.append_subset.2 ⟨List.subset_append_of_subset_left _ (assigned_subset_vars e),
      List.subset_append_of_subset_right _ (assignedOf_subset_varsOf es)⟩

end

/-- What acts assigns or calls. -/
theorem nothing_of_not_hasSideEffects {e : Expr} (idle : e.hasSideEffects = false) :
    e.assigned = [] ∧ e.calls = [] := by
  cases e with
  | error | literal | var => exact ⟨rfl, rfl⟩
  | assign | call => contradiction
  | unary op e => exact nothing_of_not_hasSideEffects (e := e) idle
  | convert t e => exact nothing_of_not_hasSideEffects (e := e) idle
  | binary l op r | range l r =>
    simp only [hasSideEffects, Bool.or_eq_false_iff] at idle
    have left := nothing_of_not_hasSideEffects idle.1
    have right := nothing_of_not_hasSideEffects idle.2
    simp [assigned, calls, left, right]

end Expr

namespace Stmt

mutual

def vars : Stmt → List Var
  | block body => varsOf body
  | declare v e => v :: e.vars
  | ifThen c t => c.vars ++ t.vars
  | ifElse c t e => c.vars ++ t.vars ++ e.vars
  | whileDo c body _ | doWhile body c _ => c.vars ++ body.vars
  | forIn v range body _ => v :: range.vars ++ body.vars
  | label _ | goto _ | ret none => []
  | gotoIf _ e _ | ret (some e) | expr e => e.vars

def varsOf : List Stmt → List Var
  | [] => []
  | s :: ss => s.vars ++ varsOf ss

end

theorem exists_of_mem_varsOf {v : Var} {ss : List Stmt} (member : v ∈ varsOf ss) :
    ∃ s ∈ ss, v ∈ s.vars := by
  induction ss with
  | nil => contradiction
  | cons s ss ih =>
    rcases List.mem_append.1 member with first | rest
    · exact ⟨s, List.mem_cons_self, first⟩
    · obtain ⟨other, within, isVar⟩ := ih rest
      exact ⟨other, List.mem_cons_of_mem s within, isVar⟩

mutual

def calls : Stmt → List Fn
  | block body => callsOf body
  | ifThen c t => c.calls ++ t.calls
  | ifElse c t e => c.calls ++ t.calls ++ e.calls
  | whileDo c body _ | doWhile body c _ => c.calls ++ body.calls
  | forIn _ range body _ => range.calls ++ body.calls
  | label _ | goto _ | ret none => []
  | declare _ e | gotoIf _ e _ | ret (some e) | expr e => e.calls

def callsOf : List Stmt → List Fn
  | [] => []
  | s :: ss => s.calls ++ callsOf ss

end

theorem exists_of_mem_callsOf {f : Fn} {ss : List Stmt} (member : f ∈ callsOf ss) :
    ∃ s ∈ ss, f ∈ s.calls := by
  induction ss with
  | nil => contradiction
  | cons s ss ih =>
    rcases List.mem_append.1 member with first | rest
    · exact ⟨s, List.mem_cons_self, first⟩
    · obtain ⟨other, within, isCalled⟩ := ih rest
      exact ⟨other, List.mem_cons_of_mem s within, isCalled⟩

mutual

/-- The variables of the `for` loops in a statement. -/
def loopVars : Stmt → List Var
  | block body => loopVarsOf body
  | ifThen _ t => t.loopVars
  | ifElse _ t e => t.loopVars ++ e.loopVars
  | whileDo _ body _ | doWhile body _ _ => body.loopVars
  | forIn v _ body _ => v :: body.loopVars
  | declare _ _ | label _ | goto _ | gotoIf _ _ _ | ret _ | expr _ => []

def loopVarsOf : List Stmt → List Var
  | [] => []
  | s :: ss => s.loopVars ++ loopVarsOf ss

end

mutual

/-- The numbers of the labels that a statement brings along: those of its loops, and those
it defines itself. -/
def ownLabels : Stmt → List Nat
  | block body => ownLabelsOf body
  | ifThen _ t => t.ownLabels
  | ifElse _ t e => t.ownLabels ++ e.ownLabels
  | whileDo _ body l | doWhile body _ l | forIn _ _ body l =>
    l.onBreak.id :: l.onContinue.id :: body.ownLabels
  | label l => [l.id]
  | declare _ _ | goto _ | gotoIf _ _ _ | ret _ | expr _ => []

def ownLabelsOf : List Stmt → List Nat
  | [] => []
  | s :: ss => s.ownLabels ++ ownLabelsOf ss

end

end Stmt

/-- A run of the program may call the function: it is called in the body of the entry
function, or in the body of a function that may itself be called. -/
inductive Program.MayCall (p : Program) : Fn → Prop
  | entry {entry f : Fn} {body : Body} : p.entry = some entry → p.body? entry = some body →
      f ∈ Stmt.callsOf body → p.MayCall f
  | step {g f : Fn} {body : Body} : p.MayCall g → p.body? g = some body →
      f ∈ Stmt.callsOf body → p.MayCall f

end ScriptLang
