import ScriptLang.Stmt

/-! Expressions and statements seen as nodes with children. `descendants` lists a node and
everything below it, parents before children and children in order, by taking nodes off
a list of pending ones. -/

namespace ScriptLang

inductive Node where
  | expr (e : Expr)
  | stmt (s : Stmt)
  deriving Inhabited

namespace Node

def exprChildren : Expr → List Node
  | .error | .literal _ | .var _ => []
  | .assign _ e | .unary _ e | .convert _ e => [expr e]
  | .binary l _ r | .range l r => [expr l, expr r]
  | .call _ args => args.map expr

def stmtChildren : Stmt → List Node
  | .block body => body.map stmt
  | .declare _ e => [expr e]
  | .ifThen c t => [expr c, stmt t]
  | .ifElse c t e => [expr c, stmt t, stmt e]
  | .whileDo c body _ => [expr c, stmt body]
  | .doWhile body c _ => [stmt body, expr c]
  | .forIn _ range body _ => [expr range, stmt body]
  | .label _ | .goto _ => []
  | .gotoIf _ c _ => [expr c]
  | .ret value => value.toList.map expr
  | .expr e => [expr e]

/-- The nodes just below, in the order in which they are evaluated. -/
def children : Node → List Node
  | expr e => exprChildren e
  | stmt s => stmtChildren s

mutual

def exprCount : Expr → Nat
  | .error | .literal _ | .var _ => 1
  | .assign _ e | .unary _ e | .convert _ e => exprCount e + 1
  | .binary l _ r | .range l r => exprCount l + exprCount r + 1
  | .call _ args => argsCount args + 1

def argsCount : List Expr → Nat
  | [] => 0
  | e :: es => exprCount e + argsCount es

end

mutual

def stmtCount : Stmt → Nat
  | .block body => bodyCount body + 1
  | .declare _ e => exprCount e + 1
  | .ifThen c t => exprCount c + stmtCount t + 1
  | .ifElse c t e => exprCount c + stmtCount t + stmtCount e + 1
  | .whileDo c body _ => exprCount c + stmtCount body + 1
  | .doWhile body c _ => stmtCount body + exprCount c + 1
  | .forIn _ range body _ => exprCount range + stmtCount body + 1
  | .label _ | .goto _ => 1
  | .gotoIf _ c _ => exprCount c + 1
  | .ret none => 1
  | .ret (some e) => exprCount e + 1
  | .expr e => exprCount e + 1

def bodyCount : List Stmt → Nat
  | [] => 0
  | s :: ss => stmtCount s + bodyCount ss

end

def count : Node → Nat
  | expr e => exprCount e
  | stmt s => stmtCount s

def countAll : List Node → Nat
  | [] => 0
  | n :: ns => n.count + countAll ns

theorem countAll_append (ms ns : List Node) : countAll (ms ++ ns) = countAll ms + countAll ns := by
  induction ms with
  | nil => simp [countAll]
  | cons m ms ih => simp [countAll, ih, Nat.add_assoc]

theorem countAll_map_expr (es : List Expr) : countAll (es.map expr) = argsCount es := by
  induction es with
  | nil => rfl
  | cons e es ih => simp [argsCount, countAll, count, ih]

theorem countAll_map_stmt (ss : List Stmt) : countAll (ss.map stmt) = bodyCount ss := by
  induction ss with
  | nil => rfl
  | cons s ss ih => simp [bodyCount, countAll, count, ih]

/-- A node counts one more than its children together. -/
theorem countAll_children (n : Node) : countAll n.children + 1 = n.count := by
  cases n with
  | expr e =>
    cases e with
    | call f args => simp [children, exprChildren, count, exprCount, countAll_map_expr]
    | _ => simp [children, exprChildren, countAll, count, exprCount]
  | stmt s =>
    cases s with
    | block body => simp [children, stmtChildren, count, stmtCount, countAll_map_stmt]
    | ret value => cases value <;> simp [children, stmtChildren, countAll, count, stmtCount]
    | _ => simp [children, stmtChildren, countAll, count, stmtCount, Nat.add_assoc]

/-- Takes nodes off the front of `pending` and puts their children there instead. -/
def walk : List Node → List Node
  | [] => []
  | n :: pending => n :: walk (n.children ++ pending)
  termination_by pending => countAll pending
  decreasing_by
    have := countAll_children n
    simp only [countAll_append, countAll]
    omega

def descendants (n : Node) : List Node := walk [n]

end Node

end ScriptLang
