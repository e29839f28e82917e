import ScriptLang.Binding.Unit
import ScriptLang.FlowGraph
import ScriptLang.Lowering
import ScriptLang.Machine.Run
import ScriptLang.Options

/-! A unit is bound, its bodies are lowered, functions are checked to return a value on
every way through, and code that cannot be reached is removed. A unit may be compiled
on top of another one, whose declarations it then sees. -/

namespace ScriptLang

/-- A compiled unit and the declarations of the units before it, the newest first. -/
structure Compilation where
  options : Options
  declarations : Declarations
  program : Program
  history : List Declarations
  deriving Inhabited

namespace Compilation

def returnsValue (f : Fn) : Bool := f.returns != .void && f.returns != .error

def missingReturn (file : Option String) (u : Source.Unit) (f : Fn) : Diagnostic :=
  match f.declaration.bind fun id => u.functions.find? (·.mark.id = id) with
  | some source => .ofMessage .allPathsMustReturn [] file (some source.name.mark.range.toSpan)
  | none => .ofMessage .allPathsMustReturn [] none none

/-- The flat bodies of a unit, and what the check of their returns reports. -/
def lowerBodies (options : Options) (file : Option String) (u : Source.Unit) :
    List (Fn × Body) → Fresh (Bodies × List Diagnostic)
  | [] => return ([], [])
  | (f, body) :: rest => do
    let flat ← body.lower f.returns
    let reports :=
      if returnsValue f && !flat.allPathsReturn then [missingReturn file u f] else []
    let kept := if options.removeUnreachable then flat.removeUnreachable else flat
    let (bodies, more) ← lowerBodies options file u rest
    return ((f, kept) :: bodies, reports ++ more)

def compileAfter (options : Options) (history : List Declarations) (earlier : List Bodies)
    (u : Source.Unit) : Fresh Compilation := do
  let bound ← bindUnit options.scriptMode options.file history u
  let (bodies, reports) ← lowerBodies options (options.file <|> u.file) u bound.bodies
  let diagnostics := reports.foldl Diagnostics.add bound.declarations.diagnostics
  return {
    options
    declarations := bound.declarations
    program :=
      { diagnostics := diagnostics.sort, entry := bound.declarations.entry, bodies, earlier }
    history }

def compile (options : Options) (u : Source.Unit) : Fresh Compilation :=
  compileAfter options [] [] u

def continueWith (c : Compilation) (u : Source.Unit) : Fresh Compilation :=
  compileAfter c.options (c.declarations :: c.history) (c.program.bodies :: c.program.earlier) u

def continueAll (c : Compilation) : List Source.Unit → Fresh (List Compilation)
  | [] => return []
  | u :: us => do
    let next ← c.continueWith u
    return next :: (← next.continueAll us)

/-- Compiles units in a row, each on top of the one before it. -/
def chain (options : Options) : List Source.Unit → Fresh (List Compilation)
  | [] => return []
  | u :: us => do
    let c ← compile options u
    return c :: (← c.continueAll us)

/-- The diagnostics in order of place. -/
def diagnostics (c : Compilation) : Diagnostics := c.program.diagnostics

def evaluate (c : Compilation) (fuel : Nat) (globals : Store) (host : Host) : Outcome :=
  c.program.evaluate c.options.maxCallDepth fuel globals host

/-- Runs compilations in a row, each on the globals and the host that the one before it
leaves, also after a fault. -/
def evaluateAll (fuel : Nat) (globals : Store) (host : Host) : List Compilation → List Outcome
  | [] => []
  | c :: cs =>
    let out := c.evaluate fuel globals host
    out :: evaluateAll fuel out.globals out.host cs

def treeText (c : Compilation) : String :=
  String.join (c.program.bodies.map fun (f, body) =>
    f.signature ++ " \x7b\n" ++ body.text ++ "\x7d\n")

/-- The flow graph of the first function of the unit with a name. -/
def graphText? (c : Compilation) (name : String) : Option String :=
  (c.program.bodies.find? fun (f, _) => f.name = name).map fun (_, body) => body.dot

end Compilation

end ScriptLang
