import ScriptLang.Diagnostic
import ScriptLang.LabelNames
import ScriptLang.Symbol

/-! A program is what one unit compiles to, together with the bodies of the functions of
the units before it. -/

namespace ScriptLang

abbrev Bodies := List (Fn × Body)

def Bodies.body? (bodies : Bodies) (f : Fn) : Option Body :=
  (bodies.find? fun entry => entry.1.id = f.id).map Prod.snd

structure Program where
  diagnostics : Diagnostics
  /-- The function at which the program starts to run, if it has one. -/
  entry : Option Fn
  bodies : Bodies
  /-- The bodies of the units before this one, the newest first. -/
  earlier : List Bodies
  deriving Inhabited

namespace Program

def body? (p : Program) (f : Fn) : Option Body :=
  (p.bodies :: p.earlier).findSome? (Bodies.body? · f)

/-- The names of labels in the first body that shows one of them. -/
def labelNames (p : Program) (labels : List Label) : LabelNames :=
  let shows (body : Body) : Bool := (Stmt.labelsOf body).any labels.contains
  let bodies := (p.bodies :: p.earlier).flatten.map Prod.snd
  .ofBody ((bodies.find? shows).getD [])

def isFlat (p : Program) : Bool := p.bodies.all fun (_, body) => body.isFlat

end Program

end ScriptLang
