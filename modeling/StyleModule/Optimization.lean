import StyleModule.Diagnostic

/-!
# Optimization

What an optimizer of stylesheets is asked for, and what it answers. An answer without a text leaves
the stylesheet as it is; an optimizer that cannot do its work says so in its diagnostics.
-/

namespace StyleModule

/-- A stylesheet to be optimized. -/
structure Optimization where
  text : String
  file : Path
  minify : Bool
  vendorPrefixes : Bool
  sourceMap : Bool
  deriving DecidableEq, Repr

/-- The answer of an optimizer. -/
structure Optimized where
  text : Option String := none
  map : Option String := none
  diagnostics : List Diagnostic := []
  deriving DecidableEq, Repr

/-- Has the optimizer met an error? -/
def Optimized.failed (o : Optimized) : Bool := Diagnostic.anyError o.diagnostics

end StyleModule
