import ScriptLang.Source.Tree

/-! A sketch says what a source tree is made of and leaves out where its nodes stand.
`place` writes the leaves one after another, a column apart, and numbers the nodes in
the order in which they are made: the expressions and statements inside a node first,
then the names and tokens it is written with, then the node itself. -/

namespace ScriptLang.Source

namespace Sketch

inductive Expr where
  | literal (value : Value)
  | name (name : String)
  | assign (target : String) (op : Kind) (value : Expr)
  | unary (op : Kind) (operand : Expr)
  | binary (left : Expr) (op : Kind) (right : Expr)
  | range (lower upper : Expr)
  | paren (inner : Expr)
  | call (callee : String) (args : List Expr)
  deriving Inhabited

inductive Stmt where
  | block (body : List Stmt)
  | declare (keyword : Kind) (name : String) (type : Option String) (value : Expr)
  | ifThen (condition : Expr) (thenBody : Stmt)
  | ifElse (condition : Expr) (thenBody elseBody : Stmt)
  | whileDo (condition : Expr) (body : Stmt)
  | doWhile (body : Stmt) (condition : Expr)
  | forIn (name : String) (range : Expr) (body : Stmt)
  | breakLoop
  | continueLoop
  | ret (value : Option Expr)
  | expr (e : Expr)
  deriving Inhabited

structure Function where
  name : String
  parameters : List (String × String)
  returns : Option String
  body : List Stmt
  deriving Inhabited

inductive Member where
  | function (f : Function)
  | statement (s : Stmt)
  deriving Inhabited

structure Unit where
  file : Option String
  members : List Member
  deriving Inhabited

end Sketch

structure Cursor where
  pos : Nat
  id : Nat
  deriving DecidableEq, Repr

def Cursor.start : Cursor := ⟨0, 0⟩

abbrev Place := StateM Cursor

namespace Place

/-- The place of the next leaf. It is at least one column wide. -/
def leafRange (width : Nat) : Place TextRange := fun c =>
  (⟨c.pos, c.pos + max width 1⟩, { c with pos := c.pos + max width 1 + 1 })

def mark (range : TextRange) : Place Mark := fun c => (⟨range, c.id⟩, { c with id := c.id + 1 })

def leaf (width : Nat) : Place Mark := do mark (← leafRange width)

def token (kind : Kind) : Place Token := do
  return { mark := ← leaf ((kind.text?.map String.utf8ByteSize).getD 1), kind }

def name (text : String) : Place Name := do
  return { mark := ← leaf text.utf8ByteSize, text }

def typeClause (text : String) : Place TypeClause := do
  let name ← name text
  return { mark := ← mark name.mark.range, name }

def literalWidth : Value → Nat
  | .string s => s.utf8ByteSize + 2
  | v => v.text.utf8ByteSize

end Place

def coverAll? : List Stmt → Option TextRange
  | [] => none
  | s :: ss => some (s.textRange.cover ((s :: ss).getLast (List.cons_ne_nil s ss)).textRange)

def Place.blockMark (body : List Stmt) : Place Mark := do
  match coverAll? body with
  | some range => mark range
  | none => leaf 2

namespace Sketch

open Place (mark)

mutual

def Expr.place : Expr → Place Source.Expr
  | .literal v => do return .literal (← Place.leaf (Place.literalWidth v)) v
  | .name n => do
    let name ← Place.name n
    return .name (← mark name.mark.range) name
  | .assign target op value => do
    let value ← value.place
    let target ← Place.name target
    let op ← Place.token op
    return .assign (← mark (target.mark.range.cover value.textRange)) target op value
  | .unary op operand => do
    let operand ← operand.place
    let op ← Place.token op
    return .unary (← mark (op.mark.range.cover operand.textRange)) op operand
  | .binary left op right => do
    let left ← left.place
    let right ← right.place
    let op ← Place.token op
    return .binary (← mark (left.textRange.cover right.textRange)) left op right
  | .range lower upper => do
    let lower ← lower.place
    let upper ← upper.place
    return .range (← mark (lower.textRange.cover upper.textRange)) lower upper
  | .paren inner => do
    let inner ← inner.place
    return .paren (← mark inner.textRange) inner
  | .call callee args => do
    let args ← placeExprs args
    let callee ← Place.name callee
    let range := args.foldl (fun r a => r.cover a.textRange) callee.mark.range
    return .call (← mark range) callee args

def placeExprs : List Expr → Place (List Source.Expr)
  | [] => return []
  | e :: es => do
    let e ← e.place
    return e :: (← placeExprs es)

end

mutual

def Stmt.place : Stmt → Place Source.Stmt
  | .block body => do
    let body ← placeStmts body
    return .block (← Place.blockMark body) body
  | .declare keyword name type value => do
    let value ← value.place
    let keyword ← Place.token keyword
    let name ← Place.name name
    let type ← type.mapM Place.typeClause
    return .declare (← mark (keyword.mark.range.cover value.textRange)) keyword name type value
  | .ifThen c t => do
    let c ← c.place
    let t ← t.place
    return .ifThen (← mark (c.textRange.cover t.textRange)) c t
  | .ifElse c t e => do
    let c ← c.place
    let t ← t.place
    let e ← e.place
    return .ifElse (← mark (c.textRange.cover e.textRange)) c t e
  | .whileDo c body => do
    let c ← c.place
    let body ← body.place
    return .whileDo (← mark (c.textRange.cover body.textRange)) c body
  | .doWhile body c => do
    let body ← body.place
    let c ← c.place
    return .doWhile (← mark (body.textRange.cover c.textRange)) body c
  | .forIn name range body => do
    let range ← range.place
    let body ← body.place
    let name ← Place.name name
    return .forIn (← mark (name.mark.range.cover body.textRange)) name range body
  | .breakLoop => do return .jump (← Place.token .breakKeyword)
  | .continueLoop => do return .jump (← Place.token .continueKeyword)
  | .ret none => do
    let keyword ← Place.leafRange 6
    return .ret (← mark keyword) keyword none
  | .ret (some e) => do
    let e ← e.place
    let keyword ← Place.leafRange 6
    return .ret (← mark (keyword.cover e.textRange)) keyword (some e)
  | .expr e => do
    let e ← e.place
    return .expr (← mark e.textRange) e

def placeStmts : List Stmt → Place (List Source.Stmt)
  | [] => return []
  | s :: ss => do
    let s ← s.place
    return s :: (← placeStmts ss)

end

def placeParameter (p : String × String) : Place Parameter := do
  let name ← Place.name p.1
  let type ← Place.typeClause p.2
  return { mark := ← mark (name.mark.range.cover type.mark.range), name, type }

def Function.place (f : Function) : Place Source.Function := do
  let body ← placeStmts f.body
  let name ← Place.name f.name
  let parameters ← f.parameters.mapM placeParameter
  let returns ← f.returns.mapM Place.typeClause
  let bodyMark ← Place.blockMark body
  return { mark := ← mark (name.mark.range.cover bodyMark.range), name, parameters, returns,
           bodyMark, body }

def Member.place : Member → Place Source.Member
  | .function f => do return .function (← f.place)
  | .statement s => do
    let s ← s.place
    return .statement (← mark s.textRange) s

/-- Places a unit. It covers all text up to its end, that of earlier units included. -/
def Unit.place (u : Unit) : Place Source.Unit := do
  let members ← u.members.mapM Member.place
  let cursor ← get
  return { mark := ← mark ⟨0, cursor.pos⟩, file := u.file, members }

end Sketch

end ScriptLang.Source
