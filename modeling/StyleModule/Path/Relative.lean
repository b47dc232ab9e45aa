import StyleModule.Path.Canonical

/-!
# The way from a directory to a path

Both ends are made canonical, what they share at the front is left out, and each step of the
directory that remains is taken back before the remaining steps of the target are taken.
-/

namespace StyleModule.Path

/-- The steps that lead from one list of steps to another. -/
def wayBetween : List Step → List Step → List Step
  | a :: base, b :: target =>
    if a = b then wayBetween base target
    else (a :: base).map (fun _ => .up) ++ b :: target
  | base, target => base.map (fun _ => .up) ++ target

/-- The path of `target` relative to the directory `base`; `.` where they are the same. -/
def relative (base target : Path) : Path :=
  match writeSteps
      (wayBetween (base.canonical.steps.filter (· ≠ .here)) target.canonical.steps) with
  | [] => current
  | written => ⟨String.ofList written⟩

end StyleModule.Path
