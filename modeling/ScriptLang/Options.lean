import ScriptLang.Json

/-! What can be set for a compilation, and the settings file that sets it. -/

namespace ScriptLang

structure Options where
  /-- Statements outside functions are a script: any expression may stand alone, and the
  value of the last one is the result. -/
  scriptMode : Bool
  removeUnreachable : Bool
  /-- How many calls may be active at once. Without a number there is no limit. -/
  maxCallDepth : Option Nat
  /-- The file named in diagnostics. -/
  file : Option String
  deriving DecidableEq, Repr

namespace Options

def standard : Options :=
  { scriptMode := false, removeUnreachable := true, maxCallDepth := none, file := none }

instance : Inhabited Options := ⟨standard⟩

def script : Options := { standard with scriptMode := true }

def ofJson? (j : Json) : Option Options := do
  let fields ← j.fields? ["scriptMode", "removeUnreachableCode", "maxCallDepth", "file"]
  return {
    scriptMode := ← Json.field? fields "scriptMode" standard.scriptMode Json.bool?
    removeUnreachable :=
      ← Json.field? fields "removeUnreachableCode" standard.removeUnreachable Json.bool?
    maxCallDepth :=
      ← Json.field? fields "maxCallDepth" standard.maxCallDepth (Json.optional? Json.word?)
    file := ← Json.field? fields "file" standard.file (Json.optional? Json.text?) }

def toJson (o : Options) : String :=
  "\x7b\"scriptMode\":" ++ toString o.scriptMode ++
    ",\"removeUnreachableCode\":" ++ toString o.removeUnreachable ++
    ",\"maxCallDepth\":" ++ (o.maxCallDepth.map toString).getD "null" ++
    ",\"file\":" ++ (o.file.map Json.writeString).getD "null" ++ "\x7d"

end Options

structure Settings where
  options : Options
  deriving DecidableEq, Repr, Inhabited

inductive SettingsError where
  | unreadable (path : String)
  | malformed
  deriving DecidableEq, Repr

def SettingsError.message : SettingsError → String
  | unreadable path => "cannot read '" ++ path ++ "'"
  | malformed => "invalid settings"

namespace Settings

def ofJson? (j : Json) : Option Settings := do
  let fields ← j.fields? ["compilerOptions"]
  return { options := ← Json.field? fields "compilerOptions" .standard Options.ofJson? }

def parse (content : String) : Except SettingsError Settings :=
  match (Json.parse? content).bind ofJson? with
  | some s => .ok s
  | none => .error .malformed

/-- Reads the settings file at `path`, where `files` says what the files hold that can be
read. -/
def load (files : String → Option String) (path : String) : Except SettingsError Settings :=
  match files path with
  | some content => parse content
  | none => .error (.unreadable path)

def toJson (s : Settings) : String := "\x7b\"compilerOptions\":" ++ s.options.toJson ++ "\x7d"

end Settings

end ScriptLang
