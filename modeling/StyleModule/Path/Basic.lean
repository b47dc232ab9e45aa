/-!
# Paths

A path is the text that was written; its steps are what the text means. Segments are separated by
slashes. An empty segment means nothing, and neither does `.`, save at the very beginning of a
relative path; `..` goes up, and a slash in front is the root. `Path.parent?` cuts the text, so what
is left of it stays as written, while `Path.join` writes one slash between two texts where neither
brings its own.
-/

namespace StyleModule

/-- A path, as written. -/
structure Path where
  text : String
  deriving DecidableEq, Repr, Inhabited

namespace Path

/-- What one piece of a path says: start at the root, stay, go up, or go into the entry so named. -/
inductive Step where
  | root
  | here
  | up
  | name (entry : List Char)
  deriving DecidableEq, Repr

/-- How a step is written. -/
def Step.text : Step → List Char
  | .root => ['/']
  | .here => ['.']
  | .up => ['.', '.']
  | .name entry => entry

/-- A segment that takes no step: the empty one, and `.`. -/
def isIdle (segment : List Char) : Bool := segment == [] || segment == ['.']

/-- The step a segment takes, when it takes one. -/
def Step.ofSegment? (segment : List Char) : Option Step :=
  if isIdle segment then none
  else if segment = ['.', '.'] then some .up
  else some (.name segment)

/-- The steps that a written path takes. -/
def stepsOf : List Char → List Step
  | '/' :: s => .root :: (s.splitOn '/').filterMap Step.ofSegment?
  | s =>
    match s.splitOn '/' with
    | ['.'] :: segments => .here :: segments.filterMap Step.ofSegment?
    | segments => segments.filterMap Step.ofSegment?

/-- Writes `part` after `base`: a part that begins at the root takes its place, any other part goes
behind one slash. -/
def push (base part : List Char) : List Char :=
  if part.head? = some '/' then part
  else if base = [] ∨ base.getLast? = some '/' then base ++ part
  else base ++ '/' :: part

/-- The text that takes the given steps. -/
def writeSteps (steps : List Step) : List Char :=
  steps.foldl (fun written step => push written step.text) []

/-- Segments without the idle ones they end with. -/
def dropIdleEnd (segments : List (List Char)) : List (List Char) :=
  (segments.reverse.dropWhile isIdle).reverse

/-- The text before the last step of a written path; there is none before the root, and none before
nothing. The first segment of a relative path counts as a step even when it is `.`. -/
def parentText? : List Char → Option (List Char)
  | [] => none
  | '/' :: s =>
    match dropIdleEnd (s.splitOn '/') with
    | [] => none
    | segments => some ('/' :: ['/'].intercalate (dropIdleEnd segments.dropLast))
  | s =>
    match s.splitOn '/' with
    | [] => none
    | first :: segments =>
      match dropIdleEnd segments with
      | [] => some []
      | segments => some (['/'].intercalate (first :: dropIdleEnd segments.dropLast))

/-- The directory a relative path starts from. -/
def current : Path := ⟨"."⟩

/-- The steps that the path takes. -/
def steps (p : Path) : List Step := stepsOf p.text.toList

/-- A path that takes the given steps. -/
def ofSteps (steps : List Step) : Path := ⟨String.ofList (writeSteps steps)⟩

/-- Does the path begin at the root? -/
def isAbsolute (p : Path) : Bool := p.text.toList.head? == some '/'

/-- `target` as seen from `base`; an absolute target does not look at the base. -/
def join (base target : Path) : Path :=
  ⟨String.ofList (push base.text.toList target.text.toList)⟩

/-- The path without its last step, as written. -/
def parent? (p : Path) : Option Path := (parentText? p.text.toList).map fun s => ⟨String.ofList s⟩

/-- The directory that holds a file: its parent, or the current directory where the parent is
nothing. -/
def directory (file : Path) : Path :=
  match file.parent? with
  | some dir => if dir.text = "" then current else dir
  | none => current

/-- The name of the entry that the path ends in; there is none where it ends at the root or goes
up. -/
def fileName? (p : Path) : Option (List Char) :=
  match p.steps.getLast? with
  | some (.name entry) => some entry
  | _ => none

/-- The path with every backslash turned into a slash, the form that a module specifier takes. -/
def slashed (p : Path) : List Char := p.text.toList.map fun c => if c = '\\' then '/' else c

end Path

end StyleModule
