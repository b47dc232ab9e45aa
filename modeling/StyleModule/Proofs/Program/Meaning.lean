import StyleModule.Product
import StyleModule.Proofs.Program.Written

/-!
# What generated programs mean

`Product.output_means`: the program generated for a product is read back, in the format it was
written in, as the script that imports what the product imports, binds the product's name to the sum
of the imported names and the product's text, and exports it; and running that script exports the
texts of the imported stylesheets in order, followed by the product's own.

Running rests on the names being distinct: each name is bound once, and a name that is looked up is
found with the value it was bound to.
-/

namespace StyleModule

namespace Script

theorem Scope.bind_of_not_mem {format : Format} {scope : Scope} {name : String} (value : String)
    (free : name ∉ given format) (fresh : name ∉ scope.map Prod.fst) :
    scope.bind format name value = some (scope ++ [(name, value)]) := by
  rw [Scope.bind, if_neg]
  rintro (h | h)
  · exact free h
  · exact fresh h

/-- The values that imports are bound to. -/
def Scope.ofImports (files : String → String) (imports : List Binding) : Scope :=
  imports.map fun b => (b.name, files b.specifier)

theorem Scope.names_ofImports (files : String → String) (imports : List Binding) :
    (Scope.ofImports files imports).map Prod.fst = imports.map Binding.name := by
  rw [Scope.ofImports, List.map_map]
  rfl

theorem Scope.bindImports_eq (format : Format) (files : String → String) (imports : List Binding)
    (free : ∀ b ∈ imports, b.name ∉ given format) :
    ∀ scope : Scope, (scope.map Prod.fst ++ imports.map Binding.name).Nodup →
      Scope.bindImports format files scope imports =
        some (scope ++ Scope.ofImports files imports) := by
  induction imports with
  | nil =>
    intro scope _
    rw [Scope.bindImports]
    exact congrArg some (List.append_nil scope).symm
  | cons b imports ih =>
    intro scope distinct
    have fresh : b.name ∉ scope.map Prod.fst := by
      intro h
      exact List.disjoint_of_nodup_append distinct h List.mem_cons_self
    have others : ∀ b ∈ imports, b.name ∉ given format := by
      intro other h
      exact free other (List.mem_cons_of_mem _ h)
    have next : ((scope ++ [(b.name, files b.specifier)]).map Prod.fst ++
        imports.map Binding.name).Nodup := by
      rw [List.map_append, List.append_assoc]
      exact distinct
    rw [Scope.bindImports, Scope.bind_of_not_mem _ (free b List.mem_cons_self) fresh,
      Option.bind_eq_bind, Option.bind_some, ih others _ next, List.append_assoc]
    rfl

/-- A name that is bound once is found with its value. -/
theorem Scope.lookup_of_mem {scope : Scope} (distinct : (scope.map Prod.fst).Nodup)
    {name value : String} (h : (name, value) ∈ scope) : scope.lookup name = some value := by
  obtain ⟨before, after, rfl⟩ := List.append_of_mem h
  apply List.lookup_eq_some_iff.2
  refine ⟨before, after, rfl, ?_⟩
  intro entry he
  rw [List.map_append, List.map_cons] at distinct
  have other : name ≠ entry.1 := by
    rintro rfl
    exact List.disjoint_of_nodup_append distinct (List.mem_map_of_mem he) List.mem_cons_self
  exact bne_iff_ne.2 other

/-- Every imported name is found with the text it was bound to. -/
theorem Scope.mapM_lookup (files : String → String) {imports : List Binding} {scope : Scope}
    (distinct : (scope.map Prod.fst).Nodup) (bound : Scope.ofImports files imports ⊆ scope) :
    (imports.map Binding.name).mapM (fun name => scope.lookup name) =
      some (imports.map fun b => files b.specifier) := by
  induction imports with
  | nil => rfl
  | cons b imports ih =>
    have found := Scope.lookup_of_mem distinct (bound List.mem_cons_self)
    rw [List.map_cons, List.mapM_cons, found, ih (List.subset_of_cons_subset bound)]
    rfl

end Script

namespace Program

/-- The names that a script is given are none that it binds. -/
theorem Emittable.not_given {p : Program} (h : p.Emittable) (format : Format) :
    ∀ name ∈ p.name :: p.imports.map Binding.name, name ∉ Script.given format := by
  intro name hn
  obtain ⟨_, notRequire, notModule⟩ := h.identifiers name hn
  cases format <;> simp [Script.given, notRequire, notModule]

/-- The script of a program exports the imported texts in order, followed by its own. -/
theorem run_script {p : Program} (h : p.Emittable) (format : Format) (files : String → String) :
    p.script.run? format files =
      some (String.join (p.imports.map fun b => files b.specifier) ++ p.text) := by
  have free := h.not_given format
  have distinct := List.nodup_cons.1 h.distinct
  have scope := Script.Scope.bindImports_eq format files p.imports
    (fun b hb => free b.name (List.mem_cons_of_mem _ (List.mem_map_of_mem hb))) []
    (by rw [List.map_nil, List.nil_append]; exact distinct.2)
  rw [List.nil_append] at scope
  have names := Script.Scope.names_ofImports files p.imports
  have values := Script.Scope.mapM_lookup files (by rw [names]; exact distinct.2)
    (List.Subset.refl (Script.Scope.ofImports files p.imports))
  have unbound : p.name ∉ (Script.Scope.ofImports files p.imports).map Prod.fst := by
    rw [names]
    exact distinct.1
  have own := Script.Scope.bind_of_not_mem
    (String.join (p.imports.map fun b => files b.specifier) ++ p.text)
    (free p.name List.mem_cons_self) unbound
  have last : ((Script.Scope.ofImports files p.imports ++ [(p.name,
      String.join (p.imports.map fun b => files b.specifier) ++ p.text)]).map Prod.fst).Nodup := by
    rw [List.map_append, names]
    exact List.nodup_append_comm.1 h.distinct
  simp only [Script.run?, script, scope, Option.bind_eq_bind, Option.bind_some, values, own]
  exact Script.Scope.lookup_of_mem last (List.mem_append_right _ List.mem_cons_self)

end Program

/-- What the program of a product means, in both formats: it is read back as what the product says,
and exports the imported texts in order, followed by the product's text. -/
theorem Product.output_means {p : Product} (h : p.program.Emittable) (files : String → String) :
    (∀ format, Script.read? format (p.generate format).output =
      some ⟨p.imports.map Link.binding, p.name, p.imports.map Link.name, p.text, p.name⟩) ∧
    (∀ format, Script.runText? format files (p.generate format).output =
      some (String.join (p.imports.map fun link => files link.specifier) ++ p.text)) ∧
    Script.runText? .esm files (p.generate .esm).output =
      Script.runText? .cjs files (p.generate .cjs).output := by
  have names : p.program.imports.map Binding.name = p.imports.map Link.name := by
    rw [Product.program, List.map_map]
    rfl
  have texts : p.program.imports.map (fun b => files b.specifier) =
      p.imports.map fun link => files link.specifier := by
    rw [Product.program, List.map_map]
    rfl
  have read : ∀ format, Script.read? format (p.generate format).output =
      some ⟨p.imports.map Link.binding, p.name, p.imports.map Link.name, p.text, p.name⟩ := by
    intro format
    have script := Program.read_render h format
    rw [Program.script, names] at script
    exact script
  have run : ∀ format, Script.runText? format files (p.generate format).output =
      some (String.join (p.imports.map fun link => files link.specifier) ++ p.text) := by
    intro format
    have value := Program.run_script h format files
    rw [Program.script, names, texts] at value
    rw [Script.runText?, read, Option.bind_some]
    exact value
  exact ⟨read, run, (run .esm).trans (run .cjs).symm⟩

/-- A text with quotes, a backslash and a line break, and a name outside ASCII. -/
theorem Product.output_means_escaped :
    let p : Product :=
      { text := "i::after\x7bcontent:\"\\201C\n\"\x7d", name := "mainCss",
        imports := [⟨"@import './a.css';", ⟨"/d/a.css"⟩, "./a.css", "aCss"⟩,
          ⟨"@import './é.css';", ⟨"/d/é.css"⟩, "./é.css", "éCss"⟩] }
    p.program.Emittable ∧
      Script.runText? .cjs (fun specifier => "/*" ++ specifier ++ "*/") (p.generate .cjs).output =
        some "/*./a.css*//*./é.css*/i::after\x7bcontent:\"\\201C\n\"\x7d" := by
  intro p
  have emittable : p.program.Emittable := ⟨by decide, by decide, by decide⟩
  exact ⟨emittable, (Product.output_means emittable _).2.1 .cjs⟩

end StyleModule
