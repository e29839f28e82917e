/-! A template names its arguments by position: `{0}`, `{1}` and so on. The
arguments are put in one after another, each into the text built so far. -/

namespace ScriptLang

/-- Replaces the occurrences of `pattern` found from the left without overlap, after
`skip` characters that belong to an occurrence already replaced. -/
def replaceFrom (pattern replacement : List Char) (skip : Nat) : List Char → List Char
  | [] => []
  | c :: cs =>
    match skip with
    | k + 1 => replaceFrom pattern replacement k cs
    | 0 =>
      if pattern.isPrefixOf (c :: cs) then
        replacement ++ replaceFrom pattern replacement (pattern.length - 1) cs
      else c :: replaceFrom pattern replacement 0 cs

def replaceAll (pattern replacement text : List Char) : List Char :=
  replaceFrom pattern replacement 0 text

def placeholder (i : Nat) : List Char := '{' :: Nat.toDigits 10 i ++ ['}']

def fillFrom (i : Nat) (text : List Char) : List String → List Char
  | [] => text
  | arg :: args => fillFrom (i + 1) (replaceAll (placeholder i) arg.toList text) args

/-- The template with its placeholders replaced, in the order of the arguments. -/
def fillTemplate (template : String) (args : List String) : String :=
  String.ofList (fillFrom 0 template.toList args)

end ScriptLang
