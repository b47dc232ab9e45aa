import StyleModule.Path.Basic

/-!
# Canonical paths

The canonical form of a path is found from its text alone: staying takes no step, and going up takes
back the entry before it. At the root there is nothing above, so going up stays there; a relative
path that goes up further than it went down keeps those steps in front.
-/

namespace StyleModule.Path

/-- One more step after those in `taken`, newest first. -/
def takeStep (taken : List Step) (step : Step) : List Step :=
  match step with
  | .here => taken
  | .up =>
    match taken with
    | .name _ :: before => before
    | .root :: _ => taken
    | _ => .up :: taken
  | step => step :: taken

/-- The steps that are left when each step up has taken back the entry before it. -/
def settle (steps : List Step) : List Step := (steps.foldl takeStep []).reverse

/-- The canonical form: the settled steps, or `.` when none is left. -/
def canonical (p : Path) : Path :=
  match settle p.steps with
  | [] => current
  | steps => ofSteps steps

/-- Where the program runs, or why that cannot be told. -/
abbrev Location := Except String Path

/-- `target` as seen from the directory `base`, in canonical form. What is still relative is taken
from the working directory `here`, which is asked for only then. -/
def resolve (here : Location) (base target : Path) : Except String Path :=
  let joined := base.join target
  if joined.isAbsolute then .ok joined.canonical
  else here.map fun dir => (dir.join joined).canonical

end StyleModule.Path
