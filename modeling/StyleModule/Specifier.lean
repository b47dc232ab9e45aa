import StyleModule.Component
import StyleModule.Path.Relative

/-!
# Specifiers

The specifier under which a module imports a stylesheet is the way from the importing file's
directory, which always begins with a dot, and a query that carries what the importing component is
told, so that the imported stylesheet is built in the same way. Without a tag there is no query.
-/

namespace StyleModule

/-- One file's import of another, with what the importing component is told. -/
structure Reference where
  importee : Path
  importer : Path
  tag : Option String
  encapsulation : Encapsulation
  mode : Option String
  deriving DecidableEq, Repr

namespace Reference

/-- The way to the imported file, with a dot in front. -/
def way (r : Reference) : String :=
  let way := (r.importer.directory.relative r.importee).slashed
  String.ofList (if way.head? = some '.' then way else '.' :: '/' :: way)

/-- The entries of the query of a component with a tag. -/
def query (r : Reference) (tag : String) : List (String × String) :=
  ("tag", tag) ::
    (if r.encapsulation = .none then [] else [("encapsulation", r.encapsulation.name)]) ++
    (specificMode r.mode).toList.map fun mode => ("mode", mode)

/-- The specifier of an import. -/
def specifier (r : Reference) : String :=
  match r.tag with
  | none => r.way
  | some tag =>
    r.way ++ "?" ++ "&".intercalate ((r.query tag).map fun (key, value) => key ++ "=" ++ value)

end Reference

end StyleModule
