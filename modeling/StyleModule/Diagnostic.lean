import StyleModule.Fault
import StyleModule.Json.Fields

/-!
# Diagnostics

What is reported about a build: how grave it is, what kind of step it comes from, a header, a
message, and where it was found, as far as that is known.
-/

namespace StyleModule

/-- How grave a diagnostic is. -/
inductive Level where
  | error
  | warn
  | info
  deriving DecidableEq, Repr, Inhabited

/-- The name of a level. -/
def Level.name : Level → String
  | .error => "error"
  | .warn => "warn"
  | .info => "info"

/-- Every level with its name. -/
def Level.named : List (String × Level) := [("error", .error), ("warn", .warn), ("info", .info)]

/-- A report about a build. -/
structure Diagnostic where
  level : Level
  kind : String
  header : String
  message : String
  file : Option Path := none
  line : Option UInt32 := none
  column : Option UInt32 := none
  deriving DecidableEq, Repr

namespace Diagnostic

/-- An error found nowhere in particular. -/
def error (kind header message : String) : Diagnostic := { level := .error, kind, header, message }

/-- A warning found nowhere in particular. -/
def warn (kind header message : String) : Diagnostic := { level := .warn, kind, header, message }

/-- The error that reports a fault, in the file that the fault concerns. -/
def ofFault (fault : Fault) : Diagnostic :=
  { error "build" "Build Error" fault.message with file := fault.file? }

/-- The diagnostic, found in a file. -/
def inFile (d : Diagnostic) (file : Path) : Diagnostic := { d with file := some file }

/-- The diagnostic, found at a line and a column. -/
def located (d : Diagnostic) (line column : UInt32) : Diagnostic :=
  { d with line := some line, column := some column }

/-- Does the diagnostic report an error? -/
def isError (d : Diagnostic) : Bool := d.level == .error

/-- Is there an error among diagnostics? -/
def anyError (ds : List Diagnostic) : Bool := ds.any isError

/-! ## In JSON -/

/-- The keys of a diagnostic, in order. -/
def keys : List String :=
  ["level", "type", "header", "messageText", "absFilePath", "lineNumber", "columnNumber"]

/-- A diagnostic in JSON; where it was found is left out as far as it is not known. -/
def toJson (d : Diagnostic) : Json :=
  .ofFields
    ([("level", .ofText d.level.name), ("type", .ofText d.kind), ("header", .ofText d.header),
        ("messageText", .ofText d.message)] ++
      Json.field? "absFilePath" (fun file => .ofText file.text) d.file ++
      Json.field? "lineNumber" (fun n => .ofNat n.toNat) d.line ++
      Json.field? "columnNumber" (fun n => .ofNat n.toNat) d.column)

def ofJson? (j : Json) : Option Diagnostic := do
  let fields ← j.fields? keys keys.length
  some
    { level := ← fields.required "level" (·.choice? Level.named)
      kind := ← fields.required "type" Json.text?
      header := ← fields.required "header" Json.text?
      message := ← fields.required "messageText" Json.text?
      file := (← fields.optional "absFilePath" Json.text?).map Path.mk
      line := ← fields.optional "lineNumber" Json.word?
      column := ← fields.optional "columnNumber" Json.word? }

end Diagnostic

end StyleModule
