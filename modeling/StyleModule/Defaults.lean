import StyleModule.Fault
import StyleModule.Source

/-!
# Project defaults

A project may keep a file of defaults for its sources. What is known of a component takes precedence
over the defaults, and what neither of them says is as in a plain source.

A file that is not there is no fault. One that is there has to be readable text, and the text has to
be the JSON of a set of defaults; the failure says which of the two it is not.
-/

namespace StyleModule

/-- What a project says of its sources, each part of it or not. -/
structure Defaults where
  mode : Option String := none
  encapsulation : Option Encapsulation := none
  keepSelectors : Option Bool := none
  format : Option Format := none
  sourceMap : Option Bool := none
  vendorPrefixes : Option Bool := none
  deriving DecidableEq, Repr

/-- What is found where a file is looked for: nothing, something that cannot be read as a file, or
the bytes of a file. -/
inductive FileContent where
  | missing
  | unreadable (reason : String)
  | bytes (content : ByteArray)

namespace Defaults

/-- The keys of a set of defaults, in order. -/
def keys : List String :=
  ["mode", "encapsulation", "commentOriginalSelector", "module", "sourceMap", "autoprefixer"]

/-- The fields that are set, in order. -/
def fields (d : Defaults) : Json.Fields :=
  Json.field? "mode" .ofText d.mode ++
    Json.field? "encapsulation" Encapsulation.toJson d.encapsulation ++
    Json.field? "commentOriginalSelector" .bool d.keepSelectors ++
    Json.field? "module" Format.toJson d.format ++
    Json.field? "sourceMap" .bool d.sourceMap ++
    Json.field? "autoprefixer" .bool d.vendorPrefixes

def toJson (d : Defaults) : Json := .ofFields d.fields

def ofJson? (j : Json) : Option Defaults := do
  let fields ← j.fields? keys keys.length
  some
    { mode := ← fields.optional "mode" Json.text?
      encapsulation := ← fields.optional "encapsulation" Encapsulation.ofJson?
      keepSelectors := ← fields.optional "commentOriginalSelector" Json.bool?
      format := ← fields.optional "module" Format.ofJson?
      sourceMap := ← fields.optional "sourceMap" Json.bool?
      vendorPrefixes := ← fields.optional "autoprefixer" Json.bool? }

/-- The name of the file that a project keeps its defaults in. -/
def fileName : Path := ⟨"soku-style.config.json"⟩

/-- The defaults of the project at `root`, from what is found in the place of their file. -/
def load (root : Path) : FileContent → Except Failure (Option Defaults)
  | .missing => .ok none
  | .unreadable reason =>
    .error ((Failure.ofMessage reason).within ("Failed to read " ++ (root.join fileName).text))
  | .bytes content =>
    match String.fromUTF8? content with
    | none =>
      .error ((Failure.ofMessage "stream did not contain valid UTF-8").within
        ("Failed to read " ++ (root.join fileName).text))
    | some text =>
      match (Json.parse? text).bind ofJson? with
      | some defaults => .ok (some defaults)
      | none =>
        .error ((Failure.ofMessage "not a set of defaults").within
          ("Failed to parse " ++ (root.join fileName).text))

/-- The source of a component's stylesheet in a project with these defaults. -/
def source (d : Defaults) (file : Path) (css : String) (component : Component) : Source where
  file
  css
  tag := component.tag
  mode := component.mode.or d.mode
  encapsulation := (component.encapsulation.or d.encapsulation).getD .none
  keepSelectors := d.keepSelectors.getD false
  format := d.format.getD .esm
  sourceMap := d.sourceMap.getD false
  vendorPrefixes := d.vendorPrefixes.getD true

/-- Defaults to begin a project with. -/
def sample : Defaults :=
  { encapsulation := some .shadow
    keepSelectors := some false
    format := some .esm
    sourceMap := some false
    vendorPrefixes := some true }

/-- The text of a file that holds the defaults to begin with. -/
def sampleText : String := sample.toJson.renderLines

end Defaults

/-- The source of a component's stylesheet, with the project's defaults where it has any. -/
def Source.ofComponent (defaults : Option Defaults) (file : Path) (css : String)
    (component : Component) : Source :=
  (defaults.getD {}).source file css component

end StyleModule
