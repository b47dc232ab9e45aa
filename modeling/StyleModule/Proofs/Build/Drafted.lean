import StyleModule.Build

/-!
# How a draft ends

The steps before the generation end in one of four ways, which the constructors of `Drafted` tell
apart: the file gives no name, its selectors cannot be kept to the component, an import cannot be
made, or all goes well. Each says what the draft is then, and what the tools were asked for.
`drafted` says that there are no other ways, and `build_eq` and `buildOptimized_eq` what the two
builds make of a draft.
-/

namespace StyleModule.Toolchain

/-- The ways in which the steps before the generation end. -/
inductive Drafted (t : Toolchain) (here : Path.Location) (s : Source) : Draft × List Call → Prop
  | nameless {fault : Fault}
      (unnamed : Name.binding t.identifier s.specificMode s.file = .error fault) :
      Drafted t here s ((Draft.start s.css "").report fault, [])
  | unscoped {name : String} {fault : Fault} {calls : List Call}
      (named : Name.binding t.identifier s.specificMode s.file = .ok name)
      (failed : t.scopeSource s = (.error fault, calls)) :
      Drafted t here s ((Draft.start s.css name).report fault, calls)
  | unscanned {name css : String} {fault : Fault} {calls : List Call} {names : NameSet}
      (named : Name.binding t.identifier s.specificMode s.file = .ok name)
      (kept : t.scopeSource s = (.ok css, calls))
      (failed : (s.importer here t.identifier).scan css (.singleton name) =
        (names, .error fault)) :
      Drafted t here s (⟨{ text := css, name, diagnostics := [.ofFault fault] }, names⟩, calls)
  | complete {name css : String} {scan : Scan} {calls : List Call} {names : NameSet}
      (named : Name.binding t.identifier s.specificMode s.file = .ok name)
      (kept : t.scopeSource s = (.ok css, calls))
      (scanned : (s.importer here t.identifier).scan css (.singleton name) =
        (names, .ok scan)) :
      Drafted t here s
        (⟨{ text := scan.text, name, imports := scan.imports.map (t.link s) }, names⟩,
          calls ++ scan.imports.map fun made => .resolve (s.reference made))

/-- Every draft ends in one of these ways. -/
theorem drafted (t : Toolchain) (here : Path.Location) (s : Source) :
    Drafted t here s (t.draft here s) := by
  rw [draft]
  cases named : Name.binding t.identifier s.specificMode s.file with
  | error fault => exact .nameless named
  | ok name =>
    dsimp only
    cases scoping : t.scopeSource s with
    | mk kept calls =>
      cases kept with
      | error fault => exact .unscoped named scoping
      | ok css =>
        simp only [Draft.scan, Draft.withText, Draft.start]
        cases scanning : (s.importer here t.identifier).scan css (.singleton name) with
        | mk names scanned =>
          cases scanned with
          | error fault => exact .unscanned named scoping scanning
          | ok scan => exact .complete named scoping scanning

/-! ## From a draft to a product -/

theorem build_eq (t : Toolchain) (here : Path.Location) (s : Source) :
    t.build here s =
      if (t.draft here s).1.product.name = "" then
        ((t.draft here s).1.product, (t.draft here s).2)
      else ((t.draft here s).1.product.generate s.format, (t.draft here s).2) := rfl

theorem buildOptimized_eq (t : Toolchain) (here : Path.Location) (s : Source) :
    t.buildOptimized here s =
      if (t.draft here s).1.product.name = "" then
        ((t.draft here s).1.product, (t.draft here s).2)
      else
        let request := s.optimization (t.draft here s).1.product.text
        let product := (t.draft here s).1.product.withOptimized (t.optimize request)
        (if (t.optimize request).failed then product else product.generate s.format,
          (t.draft here s).2 ++ [.optimize request]) := rfl

/-- A build keeps the name and the imports of the draft, whatever the optimizer answers. -/
theorem name_imports_of_built {t : Toolchain} {here : Path.Location} {s : Source} {p : Product}
    (built : p = (t.build here s).1 ∨ p = (t.buildOptimized here s).1) :
    p.name = (t.draft here s).1.product.name ∧ p.imports = (t.draft here s).1.product.imports := by
  rcases built with rfl | rfl
  · rw [build_eq]
    split <;> exact ⟨rfl, rfl⟩
  · rw [buildOptimized_eq]
    split
    next => exact ⟨rfl, rfl⟩
    next => dsimp only; split <;> exact ⟨rfl, rfl⟩

end StyleModule.Toolchain
