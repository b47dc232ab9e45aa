import StyleModule.Component
import StyleModule.Json.Quote

/-!
# Generated programs

The program that stands for a stylesheet binds the text of each imported stylesheet to a name, then
binds its own name to those texts followed by its own, and exports it. It is written in either
format of a module; a text is written as a JSON string, which is a string of the language.
-/

namespace StyleModule

/-- A name bound to what another module exports. -/
structure Binding where
  name : String
  specifier : String
  deriving DecidableEq, Repr

/-- The program of a stylesheet: what it imports, the name it exports, and its own text. -/
structure Program where
  imports : List Binding
  name : String
  text : String
  deriving DecidableEq, Repr

namespace Program

/-- A line that binds an imported text. -/
def importLine (format : Format) (b : Binding) : String :=
  match format with
  | .esm => "import " ++ b.name ++ " from '" ++ b.specifier ++ "';\n"
  | .cjs => "const " ++ b.name ++ " = require('" ++ b.specifier ++ "');\n"

/-- The expression whose value is the program's: the imported texts, then its own. -/
def expression (p : Program) : String :=
  String.join (p.imports.map fun b => b.name ++ " + ") ++
    String.ofList (Json.quote p.text.toList)

/-- The line that exports the program's value. -/
def exportLine (format : Format) (name : String) : String :=
  match format with
  | .esm => "export default " ++ name ++ ";"
  | .cjs => "module.exports = " ++ name ++ ";"

@[simp]
theorem exportLine_esm (name : String) :
    exportLine .esm name = "export default " ++ name ++ ";" := rfl

@[simp]
theorem exportLine_cjs (name : String) :
    exportLine .cjs name = "module.exports = " ++ name ++ ";" := rfl

/-- The text of a program. -/
def render (format : Format) (p : Program) : String :=
  String.join (p.imports.map (importLine format)) ++
    "const " ++ p.name ++ " = " ++ p.expression ++ ";\n" ++ exportLine format p.name

end Program

end StyleModule
