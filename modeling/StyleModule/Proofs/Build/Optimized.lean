import StyleModule.Proofs.Build.Drafted

/-!
# Builds that optimize

A build that optimizes is the build that does not, and one question more (`buildOptimized_refines`):
the optimizer is asked once, after all other tools, for the text that the other build ends with, and
the product is put together from what it answers and what the other build has. Where the file gives
no name the two builds are the same.
-/

namespace StyleModule.Toolchain

variable {t : Toolchain} {here : Path.Location} {s : Source}

theorem optimize_not_mem_scopeSource (t : Toolchain) (s : Source) (o : Optimization) :
    .optimize o ∉ (t.scopeSource s).2 := by
  rw [scopeSource]
  split
  next => simp
  next => exact List.not_mem_nil

/-- However a draft ends, the optimizer has not been asked on the way. -/
theorem Drafted.optimize_not_mem {d : Draft × List Call} (h : Drafted t here s d)
    (o : Optimization) : .optimize o ∉ d.2 := by
  have scoping := t.optimize_not_mem_scopeSource s o
  cases h with
  | nameless => exact List.not_mem_nil
  | unscoped _ failed => rwa [failed] at scoping
  | unscanned _ kept => rwa [kept] at scoping
  | complete _ kept =>
    rw [kept] at scoping
    intro asked
    rcases List.mem_append.1 asked with asked | asked
    · exact scoping asked
    · obtain ⟨made, _, resolve⟩ := List.mem_map.1 asked
      cases resolve

/-- However a draft ends, it has neither a program nor a source map yet. -/
theorem Drafted.ungenerated {d : Draft × List Call} (h : Drafted t here s d) :
    d.1.product.output = "" ∧ d.1.product.map = none := by
  cases h <;> exact ⟨rfl, rfl⟩

/-- What an answer makes of a product without program and source map. -/
theorem withOptimized_generate {p : Product} (ungenerated : p.output = "") (unmapped : p.map = none)
    (o : Optimized) (format : Format) :
    (if o.failed then p.withOptimized o else (p.withOptimized o).generate format) =
      { diagnostics := p.diagnostics ++ o.diagnostics
        text := o.text.getD p.text
        output := if o.failed then "" else Program.render format
          ⟨p.imports.map Link.binding, p.name, o.text.getD p.text⟩
        map := if o.failed then none else o.map
        name := p.name
        imports := p.imports } := by
  cases failed : o.failed with
  | true => simp [Product.withOptimized, failed, ungenerated, unmapped]
  | false => simp [Product.withOptimized, Product.generate, Product.program, failed]

/-- The build that optimizes, told from the build that does not: what that is asked for, and what
becomes of the answer. -/
theorem buildOptimized_refines (t : Toolchain) (here : Path.Location) (s : Source) :
    let p := (t.build here s).1
    let calls := (t.build here s).2
    let program := fun text => Program.render s.format
      ⟨p.imports.map fun link => ⟨link.name, link.specifier⟩, p.name, text⟩
    (∀ o, .optimize o ∉ calls) ∧
      if p.name = "" then t.buildOptimized here s = (p, calls)
      else
        let request : Optimization :=
          { text := p.text, file := s.file, minify := true
            vendorPrefixes := s.vendorPrefixes, sourceMap := s.sourceMap }
        let answer := t.optimize request
        let failed := answer.diagnostics.any fun d => d.level == .error
        p.output = program p.text ∧
          t.buildOptimized here s =
            ({ diagnostics := p.diagnostics ++ answer.diagnostics
               text := answer.text.getD p.text
               output := if failed then "" else program (answer.text.getD p.text)
               map := if failed then none else answer.map
               name := p.name
               imports := p.imports },
              calls ++ [.optimize request]) := by
  have draft := t.drafted here s
  have unasked := draft.optimize_not_mem
  obtain ⟨ungenerated, unmapped⟩ := draft.ungenerated
  rw [build_eq, buildOptimized_eq]
  generalize t.draft here s = d at unasked ungenerated unmapped
  by_cases nameless : d.1.product.name = ""
  · simp only [if_pos nameless]
    exact ⟨unasked, trivial⟩
  · simp only [if_neg nameless]
    refine ⟨unasked, ?_⟩
    rw [if_neg (show ¬ (d.1.product.generate s.format).name = "" from nameless)]
    refine ⟨rfl, Prod.ext ?_ rfl⟩
    exact withOptimized_generate ungenerated unmapped
      (t.optimize (s.optimization d.1.product.text)) s.format

end StyleModule.Toolchain
