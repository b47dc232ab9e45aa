import StyleModule.Css.Compact
import StyleModule.Css.Scope
import StyleModule.Import.Scan
import StyleModule.Product
import StyleModule.Source
import StyleModule.Specifier

/-!
# Building modules

A source becomes a product in steps: the text is bound to a name made from the file's; its selectors
are kept to the component, where that is asked for; its imports are scanned and each is given a
specifier; and the program is generated. On the way the text may be optimized.

A fault ends the steps before the generation, is reported, and leaves the product without imports;
the program is still generated from the text as far as it came. Only a file that gives no name has
no program.

Four of the steps are done by tools, which a build may be given others of. Of a build that runs with
any tools at all there is not only the product to speak about, but also what the tools were asked
for, and in which order.
-/

namespace StyleModule

/-- The tools of a build: what keeps a stylesheet's selectors to a scope, what finds specifiers,
what makes identifiers, and what optimizes. -/
structure Toolchain where
  scope : (css scope : String) → (keepSelectors : Bool) → Except Fault String
  specifier : Reference → String
  identifier : String → String
  optimize : Optimization → Optimized

/-- The usual tools. -/
def Toolchain.usual : Toolchain :=
  ⟨Css.scopeText, Reference.specifier, Name.toIdentifier, Css.compact⟩

/-- Something that a tool is asked for. -/
inductive Call where
  | scope (css scope : String) (keepSelectors : Bool)
  | resolve (reference : Reference)
  | optimize (optimization : Optimization)
  deriving DecidableEq, Repr

/-! ## Drafts -/

/-- A product in the making, and the names handed out so far. -/
structure Draft where
  product : Product
  names : NameSet

namespace Draft

/-- A draft of a text bound to a name, which is the first name handed out. -/
def start (text name : String) : Draft := ⟨{ text, name }, .singleton name⟩

/-- The draft with a fault reported. -/
def report (d : Draft) (fault : Fault) : Draft :=
  { d with
    product := { d.product with diagnostics := d.product.diagnostics ++ [.ofFault fault] } }

/-- A name like `candidate` that is new to the draft, and the draft with the name handed out. -/
def allocate (d : Draft) (candidate : String) : String × Draft :=
  let name := d.names.fresh candidate
  (name, { d with names := d.names.insert name })

/-- The draft with another text. -/
def withText (d : Draft) (text : String) : Draft := { d with product := { d.product with text } }

/-- Scans a text with the names of the draft. What is handed out on the way stays so; the scanned
text becomes the draft's, and a fault is reported. -/
def scan (d : Draft) (importer : Importer) (css : String) : Except Fault Scan × Draft :=
  match importer.scan css d.names with
  | (names, .ok scan) => (.ok scan, { d with names }.withText scan.text)
  | (names, .error fault) => (.error fault, { d with names }.report fault)

end Draft

/-! ## Steps -/

namespace Source

/-- The importer that a source is. -/
def importer (s : Source) (here : Path.Location) (identifier : String → String) : Importer :=
  ⟨s.file, s.specificMode, here, identifier⟩

/-- An import of a source, as the specifier of it depends on. -/
def reference (s : Source) (made : Import) : Reference :=
  ⟨made.file, s.file, s.tag, s.encapsulation, s.mode⟩

/-- What is asked of an optimizer for a source whose text has become `text`. -/
def optimization (s : Source) (text : String) : Optimization :=
  ⟨text, s.file, true, s.vendorPrefixes, s.sourceMap⟩

end Source

namespace Toolchain

/-- The text of a source with its selectors kept to the component, where that is asked for. -/
def scopeSource (t : Toolchain) (s : Source) : Except Fault String × List Call :=
  match s.scope? with
  | some scope =>
    (t.scope s.css scope s.keepSelectors, [.scope s.css scope s.keepSelectors])
  | none => (.ok s.css, [])

/-- An import with its specifier. -/
def link (t : Toolchain) (s : Source) (made : Import) : Link :=
  ⟨made.statement, made.file, t.specifier (s.reference made), made.name⟩

/-- The steps before the generation. -/
def draft (t : Toolchain) (here : Path.Location) (s : Source) : Draft × List Call :=
  match Name.binding t.identifier s.specificMode s.file with
  | .error fault => ((Draft.start s.css "").report fault, [])
  | .ok name =>
    let start := Draft.start s.css name
    match t.scopeSource s with
    | (.error fault, calls) => (start.report fault, calls)
    | (.ok css, calls) =>
      match (start.withText css).scan (s.importer here t.identifier) css with
      | (.error _, draft) => (draft, calls)
      | (.ok scan, draft) =>
        ({ draft with
            product := { draft.product with imports := scan.imports.map (t.link s) } },
          calls ++ scan.imports.map fun made => .resolve (s.reference made))

/-- Builds a source without optimizing it. -/
def build (t : Toolchain) (here : Path.Location) (s : Source) : Product × List Call :=
  let (draft, calls) := t.draft here s
  if draft.product.name = "" then (draft.product, calls)
  else (draft.product.generate s.format, calls)

end Toolchain

/-- The product with what an optimizer answered; the source map counts only where the optimizer met
no error. -/
def Product.withOptimized (p : Product) (o : Optimized) : Product :=
  { p with
    diagnostics := p.diagnostics ++ o.diagnostics
    text := o.text.getD p.text
    map := if o.failed then p.map else o.map }

/-- Builds a source and optimizes its text. Where the optimizer met an error, no program is
generated. -/
def Toolchain.buildOptimized (t : Toolchain) (here : Path.Location) (s : Source) :
    Product × List Call :=
  let (draft, calls) := t.draft here s
  if draft.product.name = "" then (draft.product, calls)
  else
    let request := s.optimization draft.product.text
    let answer := t.optimize request
    let product := draft.product.withOptimized answer
    (if answer.failed then product else product.generate s.format, calls ++ [.optimize request])

end StyleModule
