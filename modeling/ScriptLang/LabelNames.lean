import ScriptLang.Stmt

/-! In print a label is its stem followed by a number. The labels of one body are counted
from one in the order in which they first appear in it, so the same code reads the same
wherever it stands. A loop shows its `break` label, then its `continue` label, before
its body. -/

namespace ScriptLang

namespace Stmt

mutual

/-- The labels that a statement shows, in order, as often as it shows them. -/
def labels : Stmt → List Label
  | block body => labelsOf body
  | declare _ _ | ret _ | expr _ => []
  | ifThen _ t => t.labels
  | ifElse _ t e => t.labels ++ e.labels
  | whileDo _ body l | doWhile body _ l | forIn _ _ body l =>
    l.onBreak :: l.onContinue :: body.labels
  | label l | goto l | gotoIf l _ _ => [l]

def labelsOf : List Stmt → List Label
  | [] => []
  | s :: ss => s.labels ++ labelsOf ss

end

end Stmt

/-- The numbers of the labels of one body, in the order of their first appearance. -/
structure LabelNames where
  ids : List Nat
  deriving DecidableEq, Repr, Inhabited

namespace LabelNames

def ofBody (body : Body) : LabelNames :=
  ⟨((Stmt.labelsOf body).map Label.id).eraseDups⟩

/-- A label that the body does not show counts as the next one to appear. -/
def name (names : LabelNames) (l : Label) : String :=
  l.stem ++ toString (names.ids.idxOf l.id + 1)

end LabelNames

end ScriptLang
