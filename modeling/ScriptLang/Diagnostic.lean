import ScriptLang.Text.LineMap
import ScriptLang.Text.Span
import ScriptLang.Text.Template

/-! What is said about a program that is wrong. Mistakes are collected in the order in
which they are found; nothing stops at the first one. -/

namespace ScriptLang

inductive Category where
  | warning | error
  deriving DecidableEq, Repr, Inhabited

def Category.name : Category → String
  | warning => "warning"
  | error => "error"

/-- A kind of diagnostic: its number, its weight, and a template for its text. -/
structure Message where
  code : Nat
  category : Category
  template : String
  deriving DecidableEq, Repr, Inhabited

structure Diagnostic where
  file : Option String
  span : Option TextSpan
  text : String
  code : Nat
  category : Category
  deriving DecidableEq, Repr, Inhabited

namespace Diagnostic

def ofMessage (m : Message) (args : List String) (file : Option String) (span : Option TextSpan) :
    Diagnostic :=
  { file, span, text := fillTemplate m.template args, code := m.code, category := m.category }

def isError (d : Diagnostic) : Bool := d.category == .error

def statement (d : Diagnostic) : String :=
  d.category.name ++ " QL" ++ toString d.code ++ ": " ++ d.text

/-- A diagnostic on one line, its place given as a file and an offset. -/
def display (d : Diagnostic) : String :=
  let place := match d.span with
    | some s => "(" ++ toString s.start ++ ")"
    | none => ""
  let colon := if d.file.isSome || d.span.isSome then ": " else ""
  d.file.getD "" ++ place ++ colon ++ d.statement

/-- A diagnostic on one line, its place given as a line and a column counted from one. -/
def render (d : Diagnostic) (lines : LineMap) : String :=
  let place := match d.span with
    | some s =>
      let position := lines.locate s.start
      "(" ++ toString (position.line + 1) ++ "," ++ toString (position.column + 1) ++ ")"
    | none => ""
  let head := d.file.getD "" ++ place
  (if head.isEmpty then "" else head ++ ": ") ++ d.statement

end Diagnostic

/-- The order of files: no file first, then by the bytes of their names. -/
def fileLe : Option String → Option String → Bool
  | none, _ => true
  | some _, none => false
  | some a, some b => a.toUTF8.data.toList ≤ b.toUTF8.data.toList

structure Diagnostics where
  items : List Diagnostic
  deriving DecidableEq, Repr, Inhabited

namespace Diagnostics

def empty : Diagnostics := ⟨[]⟩

def add (ds : Diagnostics) (d : Diagnostic) : Diagnostics := ⟨ds.items ++ [d]⟩

def size (ds : Diagnostics) : Nat := ds.items.length

def isEmpty (ds : Diagnostics) : Bool := ds.items.isEmpty

def errorCount (ds : Diagnostics) : Nat := ds.items.countP Diagnostic.isError

def hasErrors (ds : Diagnostics) : Bool := ds.items.any Diagnostic.isError

/-- The order in which diagnostics are shown: by file, then by the start of the span. -/
def le (a b : Diagnostic) : Bool :=
  if a.file = b.file then (a.span.map TextSpan.start).getD 0 ≤ (b.span.map TextSpan.start).getD 0
  else fileLe a.file b.file

/-- Puts the diagnostics in order. Those at one place stay as they were reported. -/
def sort (ds : Diagnostics) : Diagnostics := ⟨ds.items.mergeSort le⟩

@[simp] theorem items_add (ds : Diagnostics) (d : Diagnostic) :
    (ds.add d).items = ds.items ++ [d] := rfl

theorem hasErrors_iff (ds : Diagnostics) : ds.hasErrors = true ↔ 0 < ds.errorCount := by
  simp [hasErrors, errorCount, List.countP_pos_iff]

end Diagnostics

end ScriptLang
