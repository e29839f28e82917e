/-! Every token and node of a source tree has a kind. The operators and keywords are
written in one fixed way; the other kinds have no text of their own. -/

namespace ScriptLang.Source

inductive Kind where
  | identifier
  | plus | minus | star | slash | percent | bang | tilde
  | ampersand | ampersandAmpersand | pipe | pipePipe | hat
  | lessLess | greaterGreater
  | equalsEquals | bangEquals | less | lessEquals | greater | greaterEquals
  | dotDot
  | equals | plusEquals | minusEquals | starEquals | slashEquals | percentEquals
  | ampersandEquals | pipeEquals | hatEquals
  | breakKeyword | continueKeyword | letKeyword | varKeyword
  | compilationUnit | functionDeclaration | globalStatement | parameter | typeClause
  | blockStatement | variableDeclaration | ifStatement | whileStatement | doWhileStatement
  | forStatement | breakStatement | continueStatement | returnStatement | expressionStatement
  | literalExpression | nameExpression | assignmentExpression | unaryExpression
  | binaryExpression | rangeExpression | parenthesizedExpression | callExpression
  deriving DecidableEq, Repr, Inhabited

namespace Kind

def all : List Kind :=
  [identifier,
    plus, minus, star, slash, percent, bang, tilde,
    ampersand, ampersandAmpersand, pipe, pipePipe, hat,
    lessLess, greaterGreater,
    equalsEquals, bangEquals, less, lessEquals, greater, greaterEquals,
    dotDot,
    equals, plusEquals, minusEquals, starEquals, slashEquals, percentEquals,
    ampersandEquals, pipeEquals, hatEquals,
    breakKeyword, continueKeyword, letKeyword, varKeyword,
    compilationUnit, functionDeclaration, globalStatement, parameter, typeClause,
    blockStatement, variableDeclaration, ifStatement, whileStatement, doWhileStatement,
    forStatement, breakStatement, continueStatement, returnStatement, expressionStatement,
    literalExpression, nameExpression, assignmentExpression, unaryExpression,
    binaryExpression, rangeExpression, parenthesizedExpression, callExpression]

def number (k : Kind) : Nat := k.ctorIdx

def name : Kind → String
  | identifier => "IdentifierToken"
  | plus => "PlusToken"
  | minus => "MinusToken"
  | star => "StarToken"
  | slash => "SlashToken"
  | percent => "PercentToken"
  | bang => "BangToken"
  | tilde => "TildeToken"
  | ampersand => "AmpersandToken"
  | ampersandAmpersand => "AmpersandAmpersandToken"
  | pipe => "PipeToken"
  | pipePipe => "PipePipeToken"
  | hat => "HatToken"
  | lessLess => "LessLessToken"
  | greaterGreater => "GreaterGreaterToken"
  | equalsEquals => "EqualsEqualsToken"
  | bangEquals => "BangEqualsToken"
  | less => "LessToken"
  | lessEquals => "LessEqualsToken"
  | greater => "GreaterToken"
  | greaterEquals => "GreaterEqualsToken"
  | dotDot => "DotDotToken"
  | equals => "EqualsToken"
  | plusEquals => "PlusEqualsToken"
  | minusEquals => "MinusEqualsToken"
  | starEquals => "StarEqualsToken"
  | slashEquals => "SlashEqualsToken"
  | percentEquals => "PercentEqualsToken"
  | ampersandEquals => "AmpersandEqualsToken"
  | pipeEquals => "PipeEqualsToken"
  | hatEquals => "HatEqualsToken"
  | breakKeyword => "BreakKeyword"
  | continueKeyword => "ContinueKeyword"
  | letKeyword => "LetKeyword"
  | varKeyword => "VarKeyword"
  | compilationUnit => "CompilationUnit"
  | functionDeclaration => "FunctionDeclaration"
  | globalStatement => "GlobalStatement"
  | parameter => "Parameter"
  | typeClause => "TypeClause"
  | blockStatement => "BlockStatement"
  | variableDeclaration => "VariableDeclaration"
  | ifStatement => "IfStatement"
  | whileStatement => "WhileStatement"
  | doWhileStatement => "DoWhileStatement"
  | forStatement => "ForStatement"
  | breakStatement => "BreakStatement"
  | continueStatement => "ContinueStatement"
  | returnStatement => "ReturnStatement"
  | expressionStatement => "ExpressionStatement"
  | literalExpression => "LiteralExpression"
  | nameExpression => "NameExpression"
  | assignmentExpression => "AssignmentExpression"
  | unaryExpression => "UnaryExpression"
  | binaryExpression => "BinaryExpression"
  | rangeExpression => "RangeExpression"
  | parenthesizedExpression => "ParenthesizedExpression"
  | callExpression => "CallExpression"

def text? : Kind → Option String
  | plus => some "+"
  | minus => some "-"
  | star => some "*"
  | slash => some "/"
  | percent => some "%"
  | bang => some "!"
  | tilde => some "~"
  | ampersand => some "&"
  | ampersandAmpersand => some "&&"
  | pipe => some "|"
  | pipePipe => some "||"
  | hat => some "^"
  | lessLess => some "<<"
  | greaterGreater => some ">>"
  | equalsEquals => some "=="
  | bangEquals => some "!="
  | less => some "<"
  | lessEquals => some "<="
  | greater => some ">"
  | greaterEquals => some ">="
  | dotDot => some ".."
  | equals => some "="
  | plusEquals => some "+="
  | minusEquals => some "-="
  | starEquals => some "*="
  | slashEquals => some "/="
  | percentEquals => some "%="
  | ampersandEquals => some "&="
  | pipeEquals => some "|="
  | hatEquals => some "^="
  | breakKeyword => some "break"
  | continueKeyword => some "continue"
  | letKeyword => some "let"
  | varKeyword => some "var"
  | _ => none

def compound? : Kind → Option Kind
  | plusEquals => some plus
  | minusEquals => some minus
  | starEquals => some star
  | slashEquals => some slash
  | percentEquals => some percent
  | ampersandEquals => some ampersand
  | pipeEquals => some pipe
  | hatEquals => some hat
  | _ => none

def isAssignment (k : Kind) : Bool := k == equals || k.compound?.isSome

def isStatement (k : Kind) : Bool :=
  blockStatement.number ≤ k.number && k.number ≤ expressionStatement.number

def isExpression (k : Kind) : Bool :=
  literalExpression.number ≤ k.number && k.number ≤ callExpression.number

def ofText? (s : String) : Option Kind := all.find? fun k => k.text? = some s || k.name = s

theorem all_getElem?_number (k : Kind) : all[k.number]? = some k := by
  cases k <;> rfl

end Kind

end ScriptLang.Source
