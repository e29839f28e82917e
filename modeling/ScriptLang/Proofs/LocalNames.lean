import ScriptLang.Source.Tree

/-! A local variable, a loop variable or a parameter gets another name, and so does every reference to
it. A reference means the nearest declaration, so a traversal keeps track of whether the old name
means a variable that is renamed. -/

namespace ScriptLang.Source

/-- Local variables of one name get another name. -/
structure LocalRename where
  old : String
  new : String
  /-- Which declarations of the old name are renamed. Marks tell them apart. -/
  picks : Mark → Bool
  /-- Where a stretch of the old text stands in the new one. -/
  place : TextRange → TextRange

namespace LocalRename

variable (r : LocalRename)

def mark (m : Mark) : Mark := { m with range := r.place m.range }

def token (t : Token) : Token := { t with mark := r.mark t.mark }

/-- What a name becomes. `active` says that the old name stands for a variable that is renamed. -/
def text (active : Bool) (name : String) : String :=
  if active ∧ name = r.old then r.new else name

def name (active : Bool) (n : Name) : Name := ⟨r.mark n.mark, r.text active n.text⟩

def clause (c : TypeClause) : TypeClause := ⟨r.mark c.mark, r.name false c.name⟩

/-- Whether the old name stands for a variable that is renamed, behind a declaration of `n`. What is
declared in the scope of the unit is not local. -/
def activeBehind (isLocal active : Bool) (n : Name) : Bool :=
  if n.text = r.old then isLocal && r.picks n.mark else active

def declared (isLocal : Bool) (n : Name) : Name := r.name (isLocal && r.picks n.mark) n

mutual

/-- Only variables are renamed, so the callee of a call stays. -/
def expr (active : Bool) : Expr → Expr
  | .literal m v => .literal (r.mark m) v
  | .name m n => .name (r.mark m) (r.name active n)
  | .assign m target op value =>
    .assign (r.mark m) (r.name active target) (r.token op) (expr active value)
  | .unary m op operand => .unary (r.mark m) (r.token op) (expr active operand)
  | .binary m left op right =>
    .binary (r.mark m) (expr active left) (r.token op) (expr active right)
  | .range m lower upper => .range (r.mark m) (expr active lower) (expr active upper)
  | .paren m inner => .paren (r.mark m) (expr active inner)
  | .call m callee args => .call (r.mark m) (r.name false callee) (exprs active args)

def exprs (active : Bool) : List Expr → List Expr
  | [] => []
  | e :: es => expr active e :: exprs active es

end

def active (isLocal before : Bool) : Stmt → Bool
  | .declare _ _ n _ _ => r.activeBehind isLocal before n
  | .ifThen _ _ t => active isLocal before t
  | .ifElse _ _ t e => active isLocal (active isLocal before t) e
  | .whileDo _ _ body | .doWhile _ body _ => active isLocal before body
  | .block _ _ | .forIn _ _ _ _ | .jump _ | .ret _ _ _ | .expr _ _ => before

mutual

/-- A block and a loop have scopes of their own. -/
def stmt (isLocal before : Bool) : Stmt → Stmt
  | .block m body => .block (r.mark m) (stmts before body)
  | .declare m keyword n type value =>
    .declare (r.mark m) (r.token keyword) (r.declared isLocal n) (type.map r.clause)
      (r.expr before value)
  | .ifThen m c t => .ifThen (r.mark m) (r.expr before c) (stmt isLocal before t)
  | .ifElse m c t e =>
    .ifElse (r.mark m) (r.expr before c) (stmt isLocal before t)
      (stmt isLocal (r.active isLocal before t) e)
  | .whileDo m c body => .whileDo (r.mark m) (r.expr before c) (stmt isLocal before body)
  | .doWhile m body c =>
    .doWhile (r.mark m) (stmt isLocal before body) (r.expr (r.active isLocal before body) c)
  | .forIn m n range body =>
    .forIn (r.mark m) (r.declared true n) (r.expr before range)
      (stmt true (r.activeBehind true before n) body)
  | .jump keyword => .jump (r.token keyword)
  | .ret m keyword none => .ret (r.mark m) (r.place keyword) none
  | .ret m keyword (some e) => .ret (r.mark m) (r.place keyword) (some (r.expr before e))
  | .expr m e => .expr (r.mark m) (r.expr before e)

def stmts (before : Bool) : List Stmt → List Stmt
  | [] => []
  | s :: ss => stmt true before s :: stmts (r.active true before s) ss

end

def parameter (p : Parameter) : Parameter := ⟨r.mark p.mark, r.declared true p.name, r.clause p.type⟩

def activeAmong (ps : List Parameter) : Bool :=
  ps.foldl (fun before p => r.activeBehind true before p.name) false

def function (f : Function) : Function where
  mark := r.mark f.mark
  name := r.name false f.name
  parameters := f.parameters.map r.parameter
  returns := f.returns.map r.clause
  bodyMark := r.mark f.bodyMark
  body := r.stmts (r.activeAmong f.parameters) f.body

def member : Member → Member
  | .function f => .function (r.function f)
  | .statement m s => .statement (r.mark m) (r.stmt false false s)

def unit (u : Unit) : Unit := ⟨r.mark u.mark, u.file, u.members.map r.member⟩

variable {r}

@[simp] theorem text_false (name : String) : r.text false name = name := by simp [text]

theorem text_name_false (n : Name) : (r.name false n).text = n.text := by
  rw [name, text_false]

theorem text_of_ne {name : String} (other : name ≠ r.old) (active : Bool) : r.text active name = name :=
  if_neg fun both => other both.2

theorem text_old : r.text true r.old = r.new := if_pos ⟨rfl, rfl⟩

theorem functions_unit (u : Unit) : (r.unit u).functions = u.functions.map r.function := by
  rw [Unit.functions, Unit.functions, unit, List.filterMap_map, List.map_filterMap]
  refine congrArg (List.filterMap · u.members) (funext fun m => ?_)
  cases m <;> rfl

theorem statements_unit (u : Unit) :
    (r.unit u).statements = u.statements.map (r.stmt false false) := by
  rw [Unit.statements, Unit.statements, unit, List.filterMap_map, List.map_filterMap]
  refine congrArg (List.filterMap · u.members) (funext fun m => ?_)
  cases m <;> rfl

/-- In the scope of the unit nothing is renamed. -/
theorem active_false (s : Stmt) : r.active false false s = false := by
  cases s with
  | declare m keyword n type value => simp [active, activeBehind]
  | ifThen m c t => exact active_false t
  | ifElse m c t e => rw [active, active_false t, active_false e]
  | whileDo m c body => exact active_false body
  | doWhile m body c => exact active_false body
  | _ => rfl

end LocalRename

end ScriptLang.Source
