import ScriptLang.Source.Tree

/-! A flat list of everything that a tree is made of, each node before its parts. It shows
where every piece of a tree stands. -/

namespace ScriptLang.Source

/-- A node, or the `return` keyword, which is not a node and has no number. -/
inductive Entry where
  | node (kind : Kind) (mark : Mark)
  | keyword (range : TextRange)
  deriving DecidableEq, Repr

def Token.entry (t : Token) : Entry := .node t.kind t.mark

def Name.entry (n : Name) : Entry := .node .identifier n.mark

def TypeClause.entries (t : TypeClause) : List Entry := [.node .typeClause t.mark, t.name.entry]

def Parameter.entries (p : Parameter) : List Entry :=
  .node .parameter p.mark :: p.name.entry :: p.type.entries

def typeEntries (type : Option TypeClause) : List Entry := (type.map TypeClause.entries).getD []

mutual

def Expr.entries : Expr → List Entry
  | .literal m _ => [.node .literalExpression m]
  | .name m n => [.node .nameExpression m, n.entry]
  | .assign m target op value =>
    .node .assignmentExpression m :: target.entry :: op.entry :: value.entries
  | .unary m op e => .node .unaryExpression m :: op.entry :: e.entries
  | .binary m l op r => .node .binaryExpression m :: l.entries ++ op.entry :: r.entries
  | .range m l u => .node .rangeExpression m :: l.entries ++ u.entries
  | .paren m e => .node .parenthesizedExpression m :: e.entries
  | .call m callee args => .node .callExpression m :: callee.entry :: exprEntries args

def exprEntries : List Expr → List Entry
  | [] => []
  | e :: es => e.entries ++ exprEntries es

end

mutual

def Stmt.entries : Stmt → List Entry
  | .block m body => .node .blockStatement m :: stmtEntries body
  | .declare m keyword name type value =>
    .node .variableDeclaration m :: keyword.entry :: name.entry :: typeEntries type ++ value.entries
  | .ifThen m c t => .node .ifStatement m :: c.entries ++ t.entries
  | .ifElse m c t e => .node .ifStatement m :: c.entries ++ t.entries ++ e.entries
  | .whileDo m c body => .node .whileStatement m :: c.entries ++ body.entries
  | .doWhile m body c => .node .doWhileStatement m :: body.entries ++ c.entries
  | .forIn m name range body =>
    .node .forStatement m :: name.entry :: range.entries ++ body.entries
  | .jump t => [t.entry]
  | .ret m keyword none => [.node .returnStatement m, .keyword keyword]
  | .ret m keyword (some e) => .node .returnStatement m :: .keyword keyword :: e.entries
  | .expr m e => .node .expressionStatement m :: e.entries

def stmtEntries : List Stmt → List Entry
  | [] => []
  | s :: ss => s.entries ++ stmtEntries ss

end

def Function.entries (f : Function) : List Entry :=
  .node .functionDeclaration f.mark :: f.name.entry :: f.parameters.flatMap Parameter.entries ++
    typeEntries f.returns ++ .node .blockStatement f.bodyMark :: stmtEntries f.body

def Member.entries : Member → List Entry
  | .function f => f.entries
  | .statement m s => .node .globalStatement m :: s.entries

def Unit.entries (u : Unit) : List Entry :=
  .node .compilationUnit u.mark :: u.members.flatMap Member.entries

end ScriptLang.Source
