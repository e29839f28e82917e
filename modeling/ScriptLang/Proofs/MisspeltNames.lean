import ScriptLang.Binding.Unit

/-! A tree is a misspelt form of another one if they differ in the places of their nodes and in some
names that have to stand for something. The misspelt names are listed in the order in which binding
comes to them. -/

namespace ScriptLang

namespace Source

/-- What a name has to stand for. -/
inductive NameUse where
  | var
  | fn
  deriving DecidableEq, Repr

structure Misspelling where
  use : NameUse
  name : Name
  deriving DecidableEq, Repr

namespace Misspelling

def message (m : Misspelling) : Message :=
  match m.use with
  | .var => .undefinedVariable
  | .fn => .undefinedFunction

def report (file : Option String) (m : Misspelling) : Diagnostic :=
  .ofMessage m.message [m.name.text] file (some m.name.mark.range.toSpan)

end Misspelling

inductive Name.Misspelt (use : NameUse) : List Misspelling → Name → Name → Prop
  | same {n n' : Name} (text : n'.text = n.text) : Misspelt use [] n n'
  | other {n n' : Name} : Misspelt use [⟨use, n'⟩] n n'

mutual

inductive Expr.Misspelt : List Misspelling → Expr → Expr → Prop
  | literal {m m' : Mark} {v : Value} :
    Misspelt [] (.literal m v) (.literal m' v)
  | name {ds : List Misspelling} {m m' : Mark} {n n' : Name} :
    n.Misspelt .var ds n' → Misspelt ds (.name m n) (.name m' n')
  | assign {ds ds' : List Misspelling} {m m' : Mark} {target target' : Name}
      {op op' : Token} {value value' : Expr} :
    op'.kind = op.kind → Misspelt ds value value' → target.Misspelt .var ds' target' →
    Misspelt (ds ++ ds') (.assign m target op value) (.assign m' target' op' value')
  | unary {ds : List Misspelling} {m m' : Mark} {op op' : Token} {e e' : Expr} :
    op'.kind = op.kind → Misspelt ds e e' →
    Misspelt ds (.unary m op e) (.unary m' op' e')
  | binary {ds ds' : List Misspelling} {m m' : Mark} {op op' : Token}
      {l l' r r' : Expr} :
    op'.kind = op.kind → Misspelt ds l l' → Misspelt ds' r r' →
    Misspelt (ds ++ ds') (.binary m l op r) (.binary m' l' op' r')
  | range {ds ds' : List Misspelling} {m m' : Mark} {l l' r r' : Expr} :
    Misspelt ds l l' → Misspelt ds' r r' →
    Misspelt (ds ++ ds') (.range m l r) (.range m' l' r')
  | paren {ds : List Misspelling} {m m' : Mark} {e e' : Expr} :
    Misspelt ds e e' → Misspelt ds (.paren m e) (.paren m' e')
  | call {ds ds' : List Misspelling} {m m' : Mark} {callee callee' : Name}
      {args args' : List Expr} :
    Expr.AllMisspelt ds args args' → callee.Misspelt .fn ds' callee' →
    Misspelt (ds ++ ds') (.call m callee args) (.call m' callee' args')

inductive Expr.AllMisspelt : List Misspelling → List Expr → List Expr → Prop
  | nil : AllMisspelt [] [] []
  | cons {ds ds' : List Misspelling} {e e' : Expr} {es es' : List Expr} :
    Expr.Misspelt ds e e' → AllMisspelt ds' es es' →
    AllMisspelt (ds ++ ds') (e :: es) (e' :: es')

end

def TypeClause.Same (t t' : Option TypeClause) : Prop :=
  t'.map (·.name.text) = t.map (·.name.text)

mutual

inductive Stmt.Misspelt : List Misspelling → Stmt → Stmt → Prop
  | block {ds : List Misspelling} {m m' : Mark} {body body' : List Stmt} :
    Stmt.AllMisspelt ds body body' → Misspelt ds (.block m body) (.block m' body')
  | declare {ds : List Misspelling} {m m' : Mark} {keyword keyword' : Token} {name name' : Name}
      {type type' : Option TypeClause} {e e' : Expr} :
    keyword'.kind = keyword.kind → name'.text = name.text → TypeClause.Same type type' →
    e.Misspelt ds e' →
    Misspelt ds (.declare m keyword name type e) (.declare m' keyword' name' type' e')
  | ifThen {ds ds' : List Misspelling} {m m' : Mark} {c c' : Expr} {t t' : Stmt} :
    c.Misspelt ds c' → Misspelt ds' t t' →
    Misspelt (ds ++ ds') (.ifThen m c t) (.ifThen m' c' t')
  | ifElse {ds ds' ds'' : List Misspelling} {m m' : Mark} {c c' : Expr} {t t' e e' : Stmt} :
    c.Misspelt ds c' → Misspelt ds' t t' → Misspelt ds'' e e' →
    Misspelt (ds ++ (ds' ++ ds'')) (.ifElse m c t e) (.ifElse m' c' t' e')
  | whileDo {ds ds' : List Misspelling} {m m' : Mark} {c c' : Expr} {body body' : Stmt} :
    c.Misspelt ds c' → Misspelt ds' body body' →
    Misspelt (ds ++ ds') (.whileDo m c body) (.whileDo m' c' body')
  | doWhile {ds ds' : List Misspelling} {m m' : Mark} {c c' : Expr} {body body' : Stmt} :
    Misspelt ds body body' → c.Misspelt ds' c' →
    Misspelt (ds ++ ds') (.doWhile m body c) (.doWhile m' body' c')
  | forIn {ds ds' : List Misspelling} {m m' : Mark} {name name' : Name} {range range' : Expr}
      {body body' : Stmt} :
    name'.text = name.text → range.Misspelt ds range' → Misspelt ds' body body' →
    Misspelt (ds ++ ds') (.forIn m name range body) (.forIn m' name' range' body')
  | jump {keyword keyword' : Token} :
    keyword'.kind = keyword.kind → Misspelt [] (.jump keyword) (.jump keyword')
  | ret {m m' : Mark} {keyword keyword' : TextRange} :
    Misspelt [] (.ret m keyword none) (.ret m' keyword' none)
  | retValue {ds : List Misspelling} {m m' : Mark} {keyword keyword' : TextRange} {e e' : Expr} :
    e.Misspelt ds e' →
    Misspelt ds (.ret m keyword (some e)) (.ret m' keyword' (some e'))
  | expr {ds : List Misspelling} {m m' : Mark} {e e' : Expr} :
    e.Misspelt ds e' → Misspelt ds (.expr m e) (.expr m' e')

inductive Stmt.AllMisspelt : List Misspelling → List Stmt → List Stmt → Prop
  | nil : AllMisspelt [] [] []
  | cons {ds ds' : List Misspelling} {s s' : Stmt} {ss ss' : List Stmt} :
    Stmt.Misspelt ds s s' → AllMisspelt ds' ss ss' →
    AllMisspelt (ds ++ ds') (s :: ss) (s' :: ss')

end

/-- Misspelt forms of a function. Names in its head stand for nothing else. -/
structure Function.Misspelt (ds : List Misspelling) (f f' : Function) : Prop where
  number : f'.mark.id = f.mark.id
  name : f'.name.text = f.name.text
  parameters : f'.parameters.map (fun p => (p.name.text, p.type.name.text)) =
    f.parameters.map fun p => (p.name.text, p.type.name.text)
  returns : TypeClause.Same f.returns f'.returns
  body : Stmt.AllMisspelt ds f.body f'.body

inductive Function.AllMisspelt : List Misspelling → List Function → List Function → Prop
  | nil : AllMisspelt [] [] []
  | cons {ds ds' : List Misspelling} {f f' : Function} {fs fs' : List Function} :
    f.Misspelt ds f' → AllMisspelt ds' fs fs' →
    AllMisspelt (ds ++ ds') (f :: fs) (f' :: fs')

/-- Misspelt forms of a unit. Its global statements are bound before the bodies of its functions. -/
inductive Unit.Misspelt (ds : List Misspelling) (u u' : Unit) : Prop
  | mk {inStatements inBodies : List Misspelling} (file : u'.file = u.file)
    (parts : ds = inStatements ++ inBodies)
    (statements : Stmt.AllMisspelt inStatements u.statements u'.statements)
    (functions : Function.AllMisspelt inBodies u.functions u'.functions)

mutual

def Stmt.declares : Stmt → List String
  | block _ body => declaresOf body
  | declare _ _ name _ _ => [name.text]
  | ifThen _ _ t => t.declares
  | ifElse _ _ t e => t.declares ++ e.declares
  | whileDo _ _ body | doWhile _ body _ => body.declares
  | forIn _ name _ body => name.text :: body.declares
  | jump _ | ret _ _ _ | expr _ _ => []

def Stmt.declaresOf : List Stmt → List String
  | [] => []
  | s :: ss => s.declares ++ declaresOf ss

end

def Function.declares (f : Function) : List String :=
  f.name.text :: f.parameters.map (·.name.text) ++ Stmt.declaresOf f.body

def Unit.declares (u : Unit) : List String :=
  Stmt.declaresOf u.statements ++ u.functions.flatMap Function.declares

end Source

/-- The name stands for nothing: neither the unit nor the history declares it, and it is that of no
builtin and of no type. -/
structure Unknown (history : List Declarations) (u : Source.Unit) (name : String) : Prop where
  unit : name ∉ u.declares
  history : ∀ d ∈ history, (∀ v ∈ d.vars, v.name ≠ name) ∧ ∀ f ∈ d.fns, f.name ≠ name
  builtin : ∀ b : Builtin, b.name ≠ name
  type : Ty.ofName? name = none

end ScriptLang
