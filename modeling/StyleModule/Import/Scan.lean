import StyleModule.Css.Comment
import StyleModule.Import.Statement
import StyleModule.Name.Binding
import StyleModule.Name.Set
import StyleModule.Path.Canonical

/-!
# Scanning for imports

The import statements of a stylesheet are those of its text without comments. Each that leads to a
file of the project becomes an import: the file is found out, a binding name is made for it and
handed out from the set of names, and the statement is taken out of the text as it was written, at
the first place where it stands. All other statements stay where they are.

The first import that cannot be made ends the scan; the names handed out before it stay taken.
-/

namespace StyleModule

/-- An import of a stylesheet: the statement, the address it names, the file that is, and the name
that the file's text is bound to. -/
structure Import where
  statement : String
  url : String
  file : Path
  name : String
  deriving DecidableEq, Repr

/-- What a scan finds: the imports in order, and the text without their statements. -/
structure Scan where
  imports : List Import
  text : String
  deriving DecidableEq, Repr

/-- Who imports: the file and the mode it is built for, where the program runs, and how identifiers
are made from file names. -/
structure Importer where
  file : Path
  mode : Option String
  here : Path.Location
  identifier : String → String

namespace Importer

/-- The file that an address of the importer leads to. -/
def locate (importer : Importer) (url : String) : Except Fault Path :=
  let target : Path := ⟨url⟩
  if target.isAbsolute then .ok target.canonical
  else
    match Path.resolve importer.here importer.file.directory target with
    | .ok file => .ok file
    | .error reason => .error (.unresolved url importer.file (.io reason))

/-- The file that an address leads to, and the binding name it asks for. -/
def find (importer : Importer) (url : String) : Except Fault (Path × String) := do
  let file ← importer.locate url
  match Name.binding importer.identifier importer.mode file with
  | .ok name => .ok (file, name)
  | .error fault => .error (.whileScanning importer.file fault)

/-- The imports that statements make, and the names taken after that. -/
def bindAll (importer : Importer) :
    List Statement → NameSet → NameSet × Except Fault (List Import)
  | [], names => (names, .ok [])
  | statement :: statements, names =>
    let url := String.ofList statement.url
    if statement.IsLocal then
      match importer.find url with
      | .error fault => (names, .error fault)
      | .ok (file, candidate) =>
        let name := names.fresh candidate
        let (names, imports) := bindAll importer statements (names.insert name)
        (names, imports.map (⟨String.ofList statement.text, url, file, name⟩ :: ·))
    else bindAll importer statements names

/-- A text without the statements of imports, each taken out where it first stands. -/
def removeAll (imports : List Import) (css : List Char) : List Char :=
  imports.foldl (fun css made => Text.removeFirst made.statement.toList css) css

/-- The statements that a scan looks at. A text in which `@import` does not stand in small letters
at least once is not looked at any further. -/
def statements (css : List Char) : List Statement :=
  if Text.contains importWord css then Statement.all (Css.withoutComments css) else []

/-- Scans a stylesheet; the names it hands out are new to the set. -/
def scan (importer : Importer) (css : String) (names : NameSet) : NameSet × Except Fault Scan :=
  let (names, imports) := importer.bindAll (statements css.toList) names
  (names, imports.map fun imports => ⟨imports, String.ofList (removeAll imports css.toList)⟩)

end Importer

end StyleModule
