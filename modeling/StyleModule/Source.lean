import StyleModule.Component
import StyleModule.Path.Basic

/-!
# Sources

A source is a stylesheet with all that decides how it is built: its file, the component it belongs
to, the format of the module, and what is asked of its text.
-/

namespace StyleModule

/-- A stylesheet and how it is to be built. -/
structure Source where
  file : Path
  css : String
  tag : Option String := none
  mode : Option String := none
  encapsulation : Encapsulation := .none
  keepSelectors : Bool := false
  format : Format := .esm
  sourceMap : Bool := false
  vendorPrefixes : Bool := true
  deriving DecidableEq, Repr

namespace Source

/-- A stylesheet that belongs to no component, with nothing asked but the usual. -/
def plain (file : Path) (css : String) : Source := { file, css }

def setTag (s : Source) (tag : String) : Source := { s with tag := some tag }

def setMode (s : Source) (mode : String) : Source := { s with mode := some mode }

def setEncapsulation (s : Source) (encapsulation : Encapsulation) : Source :=
  { s with encapsulation }

def setKeepSelectors (s : Source) (keepSelectors : Bool) : Source := { s with keepSelectors }

def setFormat (s : Source) (format : Format) : Source := { s with format }

def setSourceMap (s : Source) (sourceMap : Bool) : Source := { s with sourceMap }

def setVendorPrefixes (s : Source) (vendorPrefixes : Bool) : Source := { s with vendorPrefixes }

/-- The mode, unless it is the default. -/
def specificMode (s : Source) : Option String := StyleModule.specificMode s.mode

/-- Are the selectors to be kept to the component? They are where the component's styles are scoped
to it, and also where they live in a shadow tree, if the selectors as written are to be kept in
comments. Without a tag there is no component. -/
def scopesSelectors (s : Source) : Bool :=
  s.tag.isSome &&
    (s.encapsulation == .scoped || (s.encapsulation == .shadow && s.keepSelectors))

/-- The scope of the selectors, where they are to be kept to the component. -/
def scope? (s : Source) : Option String :=
  if s.scopesSelectors then s.tag.map fun tag => componentScope tag s.mode else none

/-! ## In JSON -/

/-- The keys of a source, in order. -/
def keys : List String :=
  ["file", "input", "tag", "mode", "encapsulation", "commentOriginalSelector", "module",
    "sourceMap", "autoprefixer"]

def toJson (s : Source) : Json :=
  .ofFields
    [("file", .ofText s.file.text), ("input", .ofText s.css),
      ("tag", .ofNullable .ofText s.tag), ("mode", .ofNullable .ofText s.mode),
      ("encapsulation", s.encapsulation.toJson),
      ("commentOriginalSelector", .bool s.keepSelectors), ("module", s.format.toJson),
      ("sourceMap", .bool s.sourceMap), ("autoprefixer", .bool s.vendorPrefixes)]

/-- Reads a source; only its file and its text have to be there. -/
def ofJson? (j : Json) : Option Source := do
  let fields ← j.fields? keys 2
  some
    { file := ⟨← fields.required "file" Json.text?⟩
      css := ← fields.required "input" Json.text?
      tag := ← fields.optional "tag" Json.text?
      mode := ← fields.optional "mode" Json.text?
      encapsulation := ← fields.orElse "encapsulation" Encapsulation.ofJson? .none
      keepSelectors := ← fields.orElse "commentOriginalSelector" Json.bool? false
      format := ← fields.orElse "module" Format.ofJson? .esm
      sourceMap := ← fields.orElse "sourceMap" Json.bool? false
      vendorPrefixes := ← fields.orElse "autoprefixer" Json.bool? true }

end Source

end StyleModule
