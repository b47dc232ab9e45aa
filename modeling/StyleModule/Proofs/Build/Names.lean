import StyleModule.Proofs.Build.Drafted
import StyleModule.Proofs.Import.Binds
import StyleModule.Proofs.Name.Legal

/-!
# The names of one build

The names that a build hands out never clash, whatever its tools are, and are legal where the usual
identifiers are made (`boundNames_nodup_legal`). The set of names that the draft carries is what
keeps them apart: it begins with the draft's own name, and every import takes a name that is new to
it, so at the end it holds exactly the names of the product.
-/

namespace StyleModule

/-- The names that the program of a product binds: its own, where it has one, and those of its
imports. -/
def Product.boundNames (p : Product) : List String :=
  (if p.name = "" then [] else [p.name]) ++ p.imports.map Link.name

theorem Product.boundNames_of_imports_eq_nil {p : Product} (none : p.imports = []) :
    p.boundNames = if p.name = "" then [] else [p.name] := by
  rw [boundNames, none, List.map_nil, List.append_nil]

/-- A product with a name binds the names of its program. -/
theorem Product.boundNames_eq {p : Product} (some : p.name ≠ "") :
    p.boundNames = p.program.name :: p.program.imports.map Binding.name := by
  rw [boundNames, if_neg some, program, List.map_map]
  rfl

namespace Toolchain

theorem map_name_link (t : Toolchain) (s : Source) (imports : List Import) :
    (imports.map (t.link s)).map Link.name = imports.map Import.name := by
  rw [List.map_map]; rfl

variable {t : Toolchain} {here : Path.Location} {s : Source}

/-- A build binds the names of its draft. -/
theorem boundNames_of_built {p : Product}
    (built : p = (t.build here s).1 ∨ p = (t.buildOptimized here s).1) :
    p.boundNames = (t.draft here s).1.product.boundNames := by
  obtain ⟨name, imports⟩ := name_imports_of_built built
  rw [Product.boundNames, Product.boundNames, name, imports]

/-! ## Distinct names -/

/-- A draft that went well has handed out its own name and those of its imports, and no others. -/
theorem boundNames_complete {name css : String} {scan : Scan} {names : NameSet}
    (named : Name.binding t.identifier s.specificMode s.file = .ok name)
    (scanned : (s.importer here t.identifier).scan css (.singleton name) = (names, .ok scan))
    (text : String) :
    Product.boundNames { text, name, imports := scan.imports.map (t.link s) } =
      names.names.reverse := by
  obtain ⟨binds, _⟩ := Importer.scan_eq_ok_iff.1 scanned
  have some : name ≠ "" := (Name.binding_eq_ok_iff.1 named).2
  rw [Product.boundNames, if_neg some, map_name_link, binds.names_eq, List.reverse_append,
    List.reverse_reverse]
  rfl

theorem Drafted.boundNames_nodup {d : Draft × List Call} (h : Drafted t here s d) :
    d.1.product.boundNames.Nodup := by
  have lone : ∀ {p : Product}, p.imports = [] → p.boundNames.Nodup := by
    intro p none
    rw [Product.boundNames_of_imports_eq_nil none]
    split
    · exact List.nodup_nil
    · exact List.nodup_singleton _
  cases h with
  | nameless => exact lone rfl
  | unscoped => exact lone rfl
  | unscanned => exact lone rfl
  | @complete name css scan calls names named kept scanned =>
    rw [boundNames_complete named scanned]
    exact List.nodup_reverse.2 names.nodup

/-! ## Legal names -/

theorem Drafted.boundNames_legal {d : Draft × List Call} (h : Drafted t here s d)
    (usual : t.identifier = Name.toIdentifier) :
    ∀ name ∈ d.1.product.boundNames, Name.Legal name := by
  have own : ∀ {name : String}, Name.binding t.identifier s.specificMode s.file = .ok name →
      Name.Legal name := fun named => Name.legal_of_binding (usual ▸ named)
  have lone : ∀ {p : Product}, p.imports = [] →
      Name.binding t.identifier s.specificMode s.file = .ok p.name →
      ∀ name ∈ p.boundNames, Name.Legal name := by
    intro p none named name mem
    rw [Product.boundNames_of_imports_eq_nil none] at mem
    split at mem
    next => cases mem
    next => rw [List.mem_singleton.1 mem]; exact own named
  intro name mem
  cases h with
  | nameless => cases mem
  | unscoped named => exact lone rfl named name mem
  | unscanned named => exact lone rfl named name mem
  | @complete _ css scan calls names named kept scanned =>
    rw [Product.boundNames, map_name_link] at mem
    rcases List.mem_append.1 mem with mem | mem
    · split at mem
      next => cases mem
      next => rw [List.mem_singleton.1 mem]; exact own named
    · obtain ⟨made, hmade, rfl⟩ := List.mem_map.1 mem
      obtain ⟨binds, _⟩ := Importer.scan_eq_ok_iff.1 scanned
      obtain ⟨candidate, taken, found, fresh⟩ := binds.find_eq made hmade
      have bound := (Importer.find_eq_ok_iff.1 found).2
      rw [fresh]
      exact (Name.legal_of_binding (usual ▸ bound)).fresh taken

/-! ## Builds -/

/-- The names that a build hands out are distinct, whatever the tools are; they are legal where the
usual identifiers are made. -/
theorem boundNames_nodup_legal (t : Toolchain) (here : Path.Location) (s : Source) :
    ((t.build here s).1.boundNames.Nodup ∧ (t.buildOptimized here s).1.boundNames.Nodup) ∧
      (∀ name ∈ ({ t with identifier := Name.toIdentifier }.build here s).1.boundNames,
        Name.Legal name) ∧
      ∀ name ∈ ({ t with identifier := Name.toIdentifier }.buildOptimized here s).1.boundNames,
        Name.Legal name := by
  rw [boundNames_of_built (.inl rfl), boundNames_of_built (.inr rfl),
    boundNames_of_built (.inl rfl), boundNames_of_built (.inr rfl)]
  have distinct := (t.drafted here s).boundNames_nodup
  have legal := ({ t with identifier := Name.toIdentifier }.drafted here s).boundNames_legal rfl
  exact ⟨⟨distinct, distinct⟩, legal, legal⟩

/-- Two imports of files with one name: the second is told apart by a number, and is legal. -/
theorem boundNames_nodup_legal_numbered :
    "aCss2" ∈ (Toolchain.usual.build (.ok ⟨"/"⟩)
        (.plain ⟨"/m.css"⟩ "@import 'a.css';@import 'b/a.css';")).1.boundNames ∧
      Name.Legal "aCss2" := by
  have mem : "aCss2" ∈ (Toolchain.usual.build (.ok ⟨"/"⟩)
      (.plain ⟨"/m.css"⟩ "@import 'a.css';@import 'b/a.css';")).1.boundNames := by
    decide +kernel
  exact ⟨mem, (boundNames_nodup_legal Toolchain.usual (.ok ⟨"/"⟩) _).2.1 _ mem⟩

end Toolchain

end StyleModule
