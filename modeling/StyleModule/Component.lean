import StyleModule.Json.Fields

/-!
# Components

What a stylesheet is told about the component it belongs to: a tag, a mode, and how far the styles
are kept to the component; and the format of the module it becomes. The mode `$`, like an empty one,
is the default that every component has, so it shows nowhere (`specificMode`).
-/

namespace StyleModule

/-- How far a component's styles are kept to the component. -/
inductive Encapsulation where
  | none
  | scoped
  | shadow
  deriving DecidableEq, Repr, Inhabited

/-- The name of an encapsulation. -/
def Encapsulation.name : Encapsulation → String
  | .none => "none"
  | .scoped => "scoped"
  | .shadow => "shadow"

/-- Every encapsulation with its name. -/
def Encapsulation.named : List (String × Encapsulation) :=
  [("none", .none), ("scoped", .scoped), ("shadow", .shadow)]

/-- The two formats of a module. -/
inductive Format where
  | esm
  | cjs
  deriving DecidableEq, Repr, Inhabited

/-- The name of a format. -/
def Format.name : Format → String
  | .esm => "esm"
  | .cjs => "cjs"

/-- Every format with its name. -/
def Format.named : List (String × Format) := [("esm", .esm), ("cjs", .cjs)]

/-- The name of the default mode. -/
def defaultMode : String := "$"

/-- A mode of a component's own: one that has a name, and not the default's. -/
def specificMode (mode : Option String) : Option String :=
  mode.filter fun m => m ≠ "" ∧ m ≠ defaultMode

/-- What is known of a component where its styles are built. -/
structure Component where
  tag : Option String
  mode : Option String
  encapsulation : Option Encapsulation
  deriving DecidableEq, Repr

/-- The scope of a component's styles, from which its classes are named. -/
def componentScope (tag : String) (mode : Option String) : String :=
  match specificMode mode with
  | some mode => "sc-" ++ tag ++ "-" ++ mode
  | .none => "sc-" ++ tag

namespace Encapsulation

def toJson (e : Encapsulation) : Json := .ofText e.name

def ofJson? (j : Json) : Option Encapsulation := j.choice? named

end Encapsulation

namespace Format

def toJson (f : Format) : Json := .ofText f.name

def ofJson? (j : Json) : Option Format := j.choice? named

end Format

end StyleModule
