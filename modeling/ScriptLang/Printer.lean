import ScriptLang.LabelNames

/-! Code reads like a program, with labels and jumps spelled out. A subexpression stands
in parentheses where it binds less tightly than its place asks. Binary operators
associate to the left. -/

namespace ScriptLang

def unaryPrecedence : Nat := 7

def BinaryAction.precedence : BinaryAction → Nat
  | multiplication | division | modulo | shiftLeft | shiftRight => 6
  | addition | subtraction => 5
  | equals | notEquals | less | lessOrEquals | greater | greaterOrEquals => 4
  | bitwiseAnd | logicalAnd => 3
  | bitwiseOr | bitwiseXor | logicalOr => 2

def quoteChar : Char → List Char
  | '"' => ['\\', '"']
  | '\\' => ['\\', '\\']
  | '\n' => ['\\', 'n']
  | c => [c]

def quote (s : String) : String :=
  String.ofList ('"' :: s.toList.flatMap quoteChar ++ ['"'])

def Value.literalText : Value → String
  | .string s => quote s
  | v => v.text

def parenthesizeIf (needed : Bool) (s : String) : String := if needed then "(" ++ s ++ ")" else s

namespace Expr

mutual

/-- The text of an expression in a place that asks for the precedence `parent`. -/
def textAt (parent : Nat) : Expr → String
  | error => "?"
  | literal v => v.literalText
  | var v => v.name
  | assign v e => parenthesizeIf (0 < parent) (v.name ++ " = " ++ e.textAt 0)
  | unary op e => op.text ++ e.textAt unaryPrecedence
  | binary l op r =>
    let p := op.action.precedence
    parenthesizeIf (p < parent) (l.textAt p ++ " " ++ op.text ++ " " ++ r.textAt (p + 1))
  | range l u => l.textAt 1 ++ ".." ++ u.textAt 1
  | call f args => f.name ++ "(" ++ ", ".intercalate (argTexts args) ++ ")"
  | convert t e => t.name ++ "(" ++ e.textAt 0 ++ ")"

def argTexts : List Expr → List String
  | [] => []
  | e :: es => e.textAt 0 :: argTexts es

end

def text (e : Expr) : String := e.textAt 0

end Expr

def codeLine (indent : Nat) (s : String) : String :=
  String.ofList (List.replicate (4 * indent) ' ') ++ s ++ "\n"

namespace Stmt

/-- A block opens at the level of its parent; any other statement stands one further in. -/
def nestedIndent (indent : Nat) : Stmt → Nat
  | block _ => indent
  | _ => indent + 1

mutual

/-- The lines of a statement. A label hangs one level to the left of the code it marks. -/
def lines (names : LabelNames) (indent : Nat) : Stmt → List String
  | block body =>
    codeLine indent "\x7b" :: linesOf names (indent + 1) body ++ [codeLine indent "\x7d"]
  | declare v e =>
    [codeLine indent ((if v.readOnly then "let " else "var ") ++ v.name ++ " = " ++ e.text)]
  | ifThen c t =>
    codeLine indent ("if " ++ c.text) :: t.lines names (nestedIndent indent t)
  | ifElse c t e =>
    codeLine indent ("if " ++ c.text) :: t.lines names (nestedIndent indent t) ++
      codeLine indent "else" :: e.lines names (nestedIndent indent e)
  | whileDo c body _ =>
    codeLine indent ("while " ++ c.text) :: body.lines names (nestedIndent indent body)
  | doWhile body c _ =>
    codeLine indent "do" :: body.lines names (nestedIndent indent body) ++
      [codeLine indent ("while " ++ c.text)]
  | forIn v range body _ =>
    codeLine indent ("for " ++ v.name ++ " in " ++ range.text) ::
      body.lines names (nestedIndent indent body)
  | label l => [codeLine (indent - 1) (names.name l ++ ":")]
  | goto l => [codeLine indent ("goto " ++ names.name l)]
  | gotoIf l c jumpIf =>
    [codeLine indent ("goto " ++ names.name l ++ (if jumpIf then " if " else " unless ") ++ c.text)]
  | ret none => [codeLine indent "return"]
  | ret (some e) => [codeLine indent ("return " ++ e.text)]
  | expr e => [codeLine indent e.text]

def linesOf (names : LabelNames) (indent : Nat) : List Stmt → List String
  | [] => []
  | s :: ss => s.lines names indent ++ linesOf names indent ss

end

def text (names : LabelNames) (s : Stmt) : String := String.join (s.lines names 0)

end Stmt

def Body.text (b : Body) : String :=
  String.join (Stmt.linesOf (LabelNames.ofBody b) 1 b)

end ScriptLang
