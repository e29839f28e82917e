import ScriptLang.Diagnostic

/-! Everything that can be wrong with a program, with a number that does not change: names
from 1000, types from 2000, statements from 3000, control flow from 4000. -/

namespace ScriptLang.Message

def error (code : Nat) (template : String) : Message := ⟨code, .error, template⟩

def undefinedVariable : Message := error 1001 "Variable '\x7b0\x7d' doesn't exist."

def undefinedFunction : Message := error 1002 "Function '\x7b0\x7d' doesn't exist."

def undefinedType : Message := error 1003 "Type '\x7b0\x7d' doesn't exist."

def notAVariable : Message := error 1004 "'\x7b0\x7d' is not a variable."

def notAFunction : Message := error 1005 "'\x7b0\x7d' is not a function."

def symbolAlreadyDeclared : Message := error 1010 "'\x7b0\x7d' is already declared."

def parameterAlreadyDeclared : Message :=
  error 1011 "A parameter with the name '\x7b0\x7d' already exists."

def cannotConvert : Message := error 2001 "Cannot convert type '\x7b0\x7d' to '\x7b1\x7d'."

def cannotConvertImplicitly : Message :=
  error 2002 ("Cannot convert type '\x7b0\x7d' to '\x7b1\x7d'. " ++
    "An explicit conversion exists (are you missing a cast?)")

def undefinedUnaryOperator : Message :=
  error 2010 "Unary operator '\x7b0\x7d' is not defined for type '\x7b1\x7d'."

def undefinedBinaryOperator : Message :=
  error 2011 "Binary operator '\x7b0\x7d' is not defined for types '\x7b1\x7d' and '\x7b2\x7d'."

def expressionMustHaveValue : Message := error 2020 "Expression must have a value."

def cannotAssign : Message :=
  error 2030 "Variable '\x7b0\x7d' is read-only and cannot be assigned to."

def wrongArgumentCount : Message :=
  error 2040 "Function '\x7b0\x7d' requires \x7b1\x7d arguments but was given \x7b2\x7d."

def rangeBoundMustBeInt : Message :=
  error 2050 "The lower bound of a range must be of type 'int', but found '\x7b0\x7d'."

def rangeOnlyInFor : Message :=
  error 2051 "Range expressions can only be used as 'for' loop bounds."

def forRequiresRange : Message :=
  error 2052 "A 'for' loop requires a range expression 'lower..upper'."

def invalidBreakOrContinue : Message :=
  error 3001 "The keyword '\x7b0\x7d' can only be used inside of loops."

def invalidReturn : Message :=
  error 3002 "The 'return' keyword can only be used inside of functions."

def invalidReturnExpression : Message :=
  error 3003 ("Since the function '\x7b0\x7d' does not return a value the 'return' keyword " ++
    "cannot be followed by an expression.")

def missingReturnExpression : Message := error 3004 "An expression of type '\x7b0\x7d' is expected."

def invalidExpressionStatement : Message :=
  error 3005 "Only assignment and call expressions can be used as a statement."

def mainMustHaveCorrectSignature : Message :=
  error 3010 "main must not take arguments and not return anything."

def cannotMixMainAndGlobalStatements : Message :=
  error 3011 "Cannot declare main function when global statements are used."

def allPathsMustReturn : Message := error 4001 "Not all code paths return a value."

def catalogue : List Message :=
  [undefinedVariable, undefinedFunction, undefinedType, notAVariable, notAFunction,
    symbolAlreadyDeclared, parameterAlreadyDeclared, cannotConvert, cannotConvertImplicitly,
    undefinedUnaryOperator, undefinedBinaryOperator, expressionMustHaveValue, cannotAssign,
    wrongArgumentCount, rangeBoundMustBeInt, rangeOnlyInFor, forRequiresRange,
    invalidBreakOrContinue, invalidReturn, invalidReturnExpression, missingReturnExpression,
    invalidExpressionStatement, mainMustHaveCorrectSignature, cannotMixMainAndGlobalStatements,
    allPathsMustReturn]

def ofCode? (code : Nat) : Option Message := catalogue.find? (·.code = code)

end ScriptLang.Message
