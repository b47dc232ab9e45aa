import StyleModule.Path.Basic

/-!
# Faults and failures

A fault is what keeps a stylesheet from becoming a module. It knows the stage it arose in, and the
file it concerns where there is one; `Fault.message` is the only place where a fault is put into
words.

A failure is a text with the texts of what led to it, outermost first. Seen as a fault it is its
outermost text alone.
-/

namespace StyleModule

/-- Why a stylesheet could not be worked on, by the stage that gave up. -/
inductive Fault where
  | io (reason : String)
  | scope (reason : String) (file : Option Path)
  | scan (reason : String) (file : Option Path)
  | other (reason : String)
  deriving DecidableEq, Repr

namespace Fault

/-- The wording of a fault. -/
def message : Fault → String
  | .io reason => "IO error: " ++ reason
  | .scope reason _ => "Scope error: " ++ reason
  | .scan reason _ => "Import scan error: " ++ reason
  | .other reason => reason

/-- The file that a fault concerns, when it is known. -/
def file? : Fault → Option Path
  | .scope _ file => file
  | .scan _ file => file
  | _ => none

/-- A block was opened after `prelude` and never closed. -/
def unclosedBlock (prelude : String) : Fault :=
  .scope ("Unclosed block after \"" ++ prelude ++ "\"") none

/-- No binding name can be made for `file`. -/
def nameless (file : Path) : Fault :=
  .other ("Unable to derive a binding name for " ++ file.text)

/-- An import of `importer` names a file that cannot be found out. -/
def unresolved (url : String) (importer : Path) (cause : Fault) : Fault :=
  .scan ("Cannot resolve @import \"" ++ url ++ "\": " ++ cause.message) (some importer)

/-- A fault met while the imports of `importer` were scanned. -/
def whileScanning (importer : Path) (cause : Fault) : Fault := .scan cause.message (some importer)

end Fault

/-- Something went wrong, and what it went wrong for. -/
structure Failure where
  outermost : String
  causes : List String
  deriving DecidableEq, Repr

namespace Failure

/-- A failure with no cause but itself. -/
def ofMessage (message : String) : Failure := ⟨message, []⟩

/-- The failure, told from the work it put an end to. -/
def within (failure : Failure) (context : String) : Failure :=
  ⟨context, failure.outermost :: failure.causes⟩

/-- The failure as a fault: the outermost text, and nothing of its causes. -/
def toFault (failure : Failure) : Fault := .other failure.outermost

end Failure

end StyleModule
