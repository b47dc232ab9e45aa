import StyleModule.Proofs.Build.Drafted

/-!
# Modes that show nowhere

A build looks at the mode of a source in four places: for the binding names, for the scope of the
selectors, for the scan of the imports, and for the specifiers. All but the last see the specific
mode only, and the usual specifiers make no difference either. So two modes that come to the same
specific mode give one product, and the tools are asked for the same, but for how the mode is
written in a reference (`draft_modeless`). The default mode, written as `$` or as an empty name, is
no specific mode at all (`default_mode_invisible`).
-/

namespace StyleModule

/-- The source with another mode. -/
def Source.withMode (s : Source) (mode : Option String) : Source := { s with mode }

/-- The tools with the usual specifiers. -/
def Toolchain.withSpecifiers (t : Toolchain) : Toolchain :=
  { t with specifier := Reference.specifier }

/-- A reference with the specific mode of its mode. -/
def Reference.modeless (r : Reference) : Reference := { r with mode := specificMode r.mode }

/-- What a tool is asked for, the writing of the mode set aside. -/
def Call.modeless : Call → Call
  | .resolve reference => .resolve reference.modeless
  | call => call

/-! ## The places where a mode is looked at -/

theorem Reference.specifier_of_modeless {r r' : Reference} (same : r.modeless = r'.modeless) :
    r.specifier = r'.specifier := by
  obtain ⟨importee, importer, tag, encapsulation, mode⟩ := r
  obtain ⟨importee', importer', tag', encapsulation', mode'⟩ := r'
  obtain ⟨rfl, rfl, rfl, rfl, specific⟩ := Reference.mk.inj same
  have query : Reference.query ⟨importee, importer, tag, encapsulation, mode⟩ =
      Reference.query ⟨importee, importer, tag, encapsulation, mode'⟩ := by
    funext tag
    exact congrArg (fun mode : Option String => _ :: _ ++ mode.toList.map _) specific
  unfold Reference.specifier
  rw [query]
  rfl

variable (t : Toolchain) (here : Path.Location) (s : Source) {mode : Option String}

theorem Source.scope?_withMode (same : StyleModule.specificMode mode = s.specificMode) :
    (s.withMode mode).scope? = s.scope? := by
  have scope : ∀ tag, componentScope tag mode = componentScope tag s.mode := by
    intro tag
    rw [componentScope, same]
    rfl
  unfold Source.scope?
  simp only [withMode, scope]
  rfl

theorem Source.modeless_reference (same : StyleModule.specificMode mode = s.specificMode)
    (made : Import) :
    ((s.withMode mode).reference made).modeless = (s.reference made).modeless :=
  congrArg (Reference.mk made.file s.file s.tag s.encapsulation) same

theorem Toolchain.link_withMode (same : specificMode mode = s.specificMode) :
    t.withSpecifiers.link (s.withMode mode) = t.withSpecifiers.link s := by
  funext made
  exact congrArg (fun specifier => Link.mk made.statement made.file specifier made.name)
    (Reference.specifier_of_modeless (s.modeless_reference same made))

theorem Source.modeless_resolve (same : StyleModule.specificMode mode = s.specificMode)
    (imports : List Import) :
    (imports.map fun made => Call.resolve ((s.withMode mode).reference made)).map Call.modeless =
      (imports.map fun made => Call.resolve (s.reference made)).map Call.modeless := by
  rw [List.map_map, List.map_map]
  apply List.map_congr_left
  intro made _
  exact congrArg Call.resolve (s.modeless_reference same made)

/-! ## Builds -/

/-- The draft of a source depends on the specific mode only, and so does what the tools are asked
for, the writing of the mode set aside. -/
theorem Toolchain.draft_modeless (same : specificMode mode = s.specificMode) :
    (t.withSpecifiers.draft here (s.withMode mode)).1 = (t.withSpecifiers.draft here s).1 ∧
      (t.withSpecifiers.draft here (s.withMode mode)).2.map Call.modeless =
        (t.withSpecifiers.draft here s).2.map Call.modeless := by
  have specific : (s.withMode mode).specificMode = s.specificMode := same
  have kept : t.withSpecifiers.scopeSource (s.withMode mode) = t.withSpecifiers.scopeSource s := by
    rw [scopeSource, scopeSource, s.scope?_withMode same]
    rfl
  have importer : (s.withMode mode).importer = s.importer := by
    funext here identifier
    exact congrArg (fun mode => Importer.mk s.file mode here identifier) same
  have file : (s.withMode mode).file = s.file := rfl
  have css : (s.withMode mode).css = s.css := rfl
  simp only [draft, specific, kept, importer, file, css, t.link_withMode s same]
  split
  next => exact ⟨rfl, rfl⟩
  next =>
    split
    next => exact ⟨rfl, rfl⟩
    next =>
      split
      next => exact ⟨rfl, rfl⟩
      next =>
        refine ⟨rfl, ?_⟩
        rw [List.map_append, List.map_append, s.modeless_resolve same]

/-- Two modes that come to the same specific mode give one product, whether the text is optimized or
not. -/
theorem Toolchain.build_modeless (same : specificMode mode = s.specificMode) :
    ((t.withSpecifiers.build here (s.withMode mode)).1 = (t.withSpecifiers.build here s).1 ∧
        (t.withSpecifiers.build here (s.withMode mode)).2.map Call.modeless =
          (t.withSpecifiers.build here s).2.map Call.modeless) ∧
      (t.withSpecifiers.buildOptimized here (s.withMode mode)).1 =
          (t.withSpecifiers.buildOptimized here s).1 ∧
        (t.withSpecifiers.buildOptimized here (s.withMode mode)).2.map Call.modeless =
          (t.withSpecifiers.buildOptimized here s).2.map Call.modeless := by
  obtain ⟨drafts, calls⟩ := t.draft_modeless here s same
  have request : (s.withMode mode).optimization = s.optimization := rfl
  have format : (s.withMode mode).format = s.format := rfl
  simp only [build_eq, buildOptimized_eq, drafts, request, format]
  split
  next => exact ⟨⟨rfl, calls⟩, rfl, calls⟩
  next =>
    refine ⟨⟨rfl, calls⟩, rfl, ?_⟩
    rw [List.map_append, List.map_append, calls]

/-- No mode, an empty mode and the mode `$` give one product, whether the text is optimized or not
and whatever the other tools are; and the tools are asked for the same, the writing of the mode set
aside. -/
theorem Toolchain.default_mode_invisible (t : Toolchain) (here : Path.Location) (s : Source) :
    let t : Toolchain := { t with specifier := Reference.specifier }
    let without : Source := { s with mode := none }
    let empty : Source := { s with mode := some "" }
    let dollar : Source := { s with mode := some "$" }
    ((t.build here empty).1 = (t.build here without).1 ∧
        (t.build here dollar).1 = (t.build here without).1) ∧
      ((t.buildOptimized here empty).1 = (t.buildOptimized here without).1 ∧
        (t.buildOptimized here dollar).1 = (t.buildOptimized here without).1) ∧
      ((t.buildOptimized here empty).2.map Call.modeless =
          (t.buildOptimized here without).2.map Call.modeless ∧
        (t.buildOptimized here dollar).2.map Call.modeless =
          (t.buildOptimized here without).2.map Call.modeless) := by
  have empty : specificMode (some "") = (s.withMode none).specificMode := by
    show specificMode (some "") = specificMode none
    decide
  have dollar : specificMode (some "$") = (s.withMode none).specificMode := by
    show specificMode (some "$") = specificMode none
    decide
  obtain ⟨⟨built, _⟩, optimized, calls⟩ := t.build_modeless here (s.withMode none) empty
  obtain ⟨⟨built', _⟩, optimized', calls'⟩ := t.build_modeless here (s.withMode none) dollar
  exact ⟨⟨built, built'⟩, ⟨optimized, optimized'⟩, calls, calls'⟩

end StyleModule
