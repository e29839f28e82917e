import ScriptLang.Source.Kind
import ScriptLang.Text.Span
import ScriptLang.Value

/-! What a reader of program text hands on: names are not resolved and types are only
named. Every node has a mark, which says where it stands and which number it has. -/

namespace ScriptLang.Source

/-- The place and the number of a node. -/
structure Mark where
  range : TextRange
  id : Nat
  deriving DecidableEq, Repr, Inhabited

structure Token where
  mark : Mark
  kind : Kind
  deriving DecidableEq, Repr, Inhabited

structure Name where
  mark : Mark
  text : String
  deriving DecidableEq, Repr, Inhabited

structure TypeClause where
  mark : Mark
  name : Name
  deriving DecidableEq, Repr, Inhabited

inductive Expr where
  | literal (mark : Mark) (value : Value)
  | name (mark : Mark) (name : Name)
  /-- `target = value`, or a compound form such as `target += value`. -/
  | assign (mark : Mark) (target : Name) (op : Token) (value : Expr)
  | unary (mark : Mark) (op : Token) (operand : Expr)
  | binary (mark : Mark) (left : Expr) (op : Token) (right : Expr)
  | range (mark : Mark) (lower upper : Expr)
  | paren (mark : Mark) (inner : Expr)
  | call (mark : Mark) (callee : Name) (args : List Expr)
  deriving Inhabited

inductive Stmt where
  | block (mark : Mark) (body : List Stmt)
  | declare (mark : Mark) (keyword : Token) (name : Name) (type : Option TypeClause) (value : Expr)
  | ifThen (mark : Mark) (condition : Expr) (thenBody : Stmt)
  | ifElse (mark : Mark) (condition : Expr) (thenBody elseBody : Stmt)
  | whileDo (mark : Mark) (condition : Expr) (body : Stmt)
  | doWhile (mark : Mark) (body : Stmt) (condition : Expr)
  | forIn (mark : Mark) (name : Name) (range : Expr) (body : Stmt)
  /-- `break` or `continue`. -/
  | jump (keyword : Token)
  | ret (mark : Mark) (keyword : TextRange) (value : Option Expr)
  | expr (mark : Mark) (e : Expr)
  deriving Inhabited

structure Parameter where
  mark : Mark
  name : Name
  type : TypeClause
  deriving DecidableEq, Repr, Inhabited

/-- A function. Without a type clause it returns nothing. -/
structure Function where
  mark : Mark
  name : Name
  parameters : List Parameter
  returns : Option TypeClause
  bodyMark : Mark
  body : List Stmt
  deriving Inhabited

inductive Member where
  | function (f : Function)
  | statement (mark : Mark) (s : Stmt)
  deriving Inhabited

structure Unit where
  mark : Mark
  file : Option String
  members : List Member
  deriving Inhabited

def Expr.mark : Expr → Mark
  | literal m _ | name m _ | assign m _ _ _ | unary m _ _ | binary m _ _ _ | range m _ _
  | paren m _ | call m _ _ => m

def Expr.textRange (e : Expr) : TextRange := e.mark.range

def Stmt.mark : Stmt → Mark
  | block m _ | declare m _ _ _ _ | ifThen m _ _ | ifElse m _ _ _ | whileDo m _ _ | doWhile m _ _
  | forIn m _ _ _ | ret m _ _ | expr m _ => m
  | jump t => t.mark

def Stmt.textRange (s : Stmt) : TextRange := s.mark.range

def Expr.kind : Expr → Kind
  | literal _ _ => .literalExpression
  | name _ _ => .nameExpression
  | assign _ _ _ _ => .assignmentExpression
  | unary _ _ _ => .unaryExpression
  | binary _ _ _ _ => .binaryExpression
  | range _ _ _ => .rangeExpression
  | paren _ _ => .parenthesizedExpression
  | call _ _ _ => .callExpression

def Stmt.kind : Stmt → Kind
  | block _ _ => .blockStatement
  | declare _ _ _ _ _ => .variableDeclaration
  | ifThen _ _ _ | ifElse _ _ _ _ => .ifStatement
  | whileDo _ _ _ => .whileStatement
  | doWhile _ _ _ => .doWhileStatement
  | forIn _ _ _ _ => .forStatement
  | jump t => t.kind
  | ret _ _ _ => .returnStatement
  | expr _ _ => .expressionStatement

def Unit.functions (u : Unit) : List Function :=
  u.members.filterMap fun
    | .function f => some f
    | .statement _ _ => none

def Unit.statements (u : Unit) : List Stmt :=
  u.members.filterMap fun
    | .function _ => none
    | .statement _ s => some s

end ScriptLang.Source
