import ScriptLang.Diagnostic.Catalogue
import ScriptLang.Scope
import ScriptLang.Source.Tree
import ScriptLang.Stmt

/-! Binding goes through a source tree once, collects diagnostics and takes fresh numbers
for the symbols it makes. It never stops early: an expression with a mistake becomes an
error expression. -/

namespace ScriptLang

structure BindState where
  nextId : Nat
  diagnostics : Diagnostics

abbrev Bind := StateM BindState

structure BindContext where
  /-- The file named in diagnostics. -/
  file : Option String
  scriptMode : Bool
  /-- The function around the statement, if it is not a global one. -/
  function : Option Fn
  /-- The loops around the statement, the innermost first. -/
  loops : List LoopLabels

namespace Bind

def fresh {α : Type} (x : Fresh α) : Bind α := fun s =>
  let (a, next) := x s.nextId
  (a, { s with nextId := next })

def report (file : Option String) (range : TextRange) (m : Message) (args : List String) :
    Bind PUnit := fun s =>
  (⟨⟩, { s with diagnostics := s.diagnostics.add (.ofMessage m args file (some range.toSpan)) })

end Bind

end ScriptLang
