import StyleModule.Diagnostic
import StyleModule.Program

/-!
# Products

What a build comes to: the diagnostics, the text of the stylesheet, the generated program and the
source map as far as there are any, the name the text is bound to, and the imported stylesheets in
the order of their imports.
-/

namespace StyleModule

/-- An imported stylesheet: the statement, the file, the specifier the program imports it under, and
the name its text is bound to. -/
structure Link where
  statement : String
  file : Path
  specifier : String
  name : String
  deriving DecidableEq, Repr

/-- What a build comes to. -/
structure Product where
  diagnostics : List Diagnostic := []
  text : String := ""
  output : String := ""
  map : Option String := none
  name : String := ""
  imports : List Link := []
  deriving DecidableEq, Repr

namespace Link

/-- The line of the program that imports the stylesheet. -/
def binding (l : Link) : Binding := ⟨l.name, l.specifier⟩

/-- The keys of a link, in order. -/
def keys : List String := ["srcImportText", "filePath", "importPath", "varName"]

def toJson (l : Link) : Json :=
  .ofFields
    [("srcImportText", .ofText l.statement), ("filePath", .ofText l.file.text),
      ("importPath", .ofText l.specifier), ("varName", .ofText l.name)]

def ofJson? (j : Json) : Option Link := do
  let fields ← j.fields? keys keys.length
  some
    { statement := ← fields.required "srcImportText" Json.text?
      file := ⟨← fields.required "filePath" Json.text?⟩
      specifier := ← fields.required "importPath" Json.text?
      name := ← fields.required "varName" Json.text? }

end Link

namespace Product

/-- Has the build met an error? -/
def failed (p : Product) : Bool := Diagnostic.anyError p.diagnostics

/-- The program that a product stands for. -/
def program (p : Product) : Program := ⟨p.imports.map Link.binding, p.name, p.text⟩

/-- The product with its program as output, whatever the output was. -/
def generate (p : Product) (format : Format) : Product :=
  { p with output := p.program.render format }

/-- The keys of a product, in order. -/
def keys : List String :=
  ["diagnostics", "styleText", "output", "map", "defaultVarName", "imports"]

def toJson (p : Product) : Json :=
  .ofFields
    [("diagnostics", .arr (p.diagnostics.map Diagnostic.toJson)), ("styleText", .ofText p.text),
      ("output", .ofText p.output), ("map", .ofNullable .ofText p.map),
      ("defaultVarName", .ofText p.name), ("imports", .arr (p.imports.map Link.toJson))]

def ofJson? (j : Json) : Option Product := do
  let fields ← j.fields? keys keys.length
  some
    { diagnostics := ← fields.required "diagnostics" (Json.list? Diagnostic.ofJson?)
      text := ← fields.required "styleText" Json.text?
      output := ← fields.required "output" Json.text?
      map := ← fields.optional "map" Json.text?
      name := ← fields.required "defaultVarName" Json.text?
      imports := ← fields.required "imports" (Json.list? Link.ofJson?) }

end Product

end StyleModule
