import StyleModule.Component
import StyleModule.Fault
import StyleModule.Name.Identifier
import StyleModule.Text.Search

/-!
# Binding names

The name that a stylesheet's text is bound to in a module is made from the name of its file. A mode
of the component's own goes in front, unless the file's name mentions it already. A file whose name
leaves nothing to make an identifier from has no binding name, which is a fault.
-/

namespace StyleModule.Name

/-- What the binding name of a file is made from: the mode, where the file's name lacks it, and the
file's name. -/
def stem (mode : Option String) (file : Path) : List Char :=
  let base := file.fileName?.getD []
  match specificMode mode with
  | some mode => if Text.contains mode.toList base then base else mode.toList ++ '-' :: base
  | none => base

/-- The binding name of a file, made by `identifier`. -/
def binding (identifier : String → String) (mode : Option String) (file : Path) :
    Except Fault String :=
  let name := identifier (String.ofList (stem mode file))
  if name = "" then .error (.nameless file) else .ok name

end StyleModule.Name
