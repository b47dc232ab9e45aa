import StyleModule.Proofs.Build.Drafted
import StyleModule.Proofs.Import.Located
import StyleModule.Proofs.Path.Relative
import StyleModule.Proofs.Specifier.Parts

/-!
# Where specifiers lead

A specifier is meant to lead back to the imported file when it is followed from the importing file's
directory. `specifier_leads_back_iff` says exactly when it does: where that directory is given from
the root, or where it is the root. For any other directory the way that was found begins at the root
(`Path.relative_apart`), and a dot in front of it makes it lead below the directory instead.
-/

namespace StyleModule

namespace Path

theorem slashed_eq {p : Path} (clean : '\\' ∉ p.text.toList) : p.slashed = p.text.toList := by
  have same : ∀ c ∈ p.text.toList, (if c = '\\' then '/' else c) = c := by
    intro c hc
    refine if_neg ?_
    rintro rfl
    exact clean hc
  rw [slashed, List.map_congr_left same, List.map_id']

end Path

namespace Reference

variable {r : Reference}

/-- A way is followed like the relative path it is made of, but never from the root. -/
theorem way_eq (clean : '\\' ∉ (r.importer.directory.relative r.importee).text.toList) :
    r.way.toList.head? = some '.' ∧ Path.segmentMoves r.way.toList =
      Path.segmentMoves (r.importer.directory.relative r.importee).text.toList := by
  rw [way, Path.slashed_eq clean, String.toList_ofList]
  generalize (r.importer.directory.relative r.importee).text.toList = path
  split
  next dot => exact ⟨dot, rfl⟩
  next =>
    have idle : Path.segmentMoves ['.'] = [] := by decide
    have front := Path.segmentMoves_slash ['.'] path
    rw [idle, List.nil_append] at front
    exact ⟨rfl, front⟩

/-- Followed from the importing file's directory, a specifier leads back to the imported file just
where that directory begins at the root, or is the root. -/
theorem way_leads_back_iff (cwd : Path) (absolute : r.importee.isAbsolute = true)
    (canonical : r.importee.canonical = r.importee)
    (clean : '\\' ∉ r.importee.text.toList) :
    ((cwd.join r.importer.directory).join ⟨r.way⟩).canonical = r.importee ↔
      r.importer.directory.isAbsolute = true ∨
        (cwd.join r.importer.directory).canonical = ⟨"/"⟩ := by
  have plain : '\\' ∉ (r.importer.directory.relative r.importee).text.toList := by
    intro h
    rcases Path.mem_relative h with h | h | h
    · cases h
    · cases h
    · exact clean h
  obtain ⟨dot, moves⟩ := way_eq plain
  have relative : (⟨r.way⟩ : Path).isAbsolute = false := by
    rw [Path.isAbsolute, dot]
    rfl
  obtain ⟨reached, below, settled⟩ := Path.settle_absolute absolute
  have leads : ((cwd.join r.importer.directory).join ⟨r.way⟩).canonical = r.importee ↔
      Path.settle ((cwd.join r.importer.directory).moves ++ Path.segmentMoves
        (r.importer.directory.relative r.importee).text.toList) = .root :: reached := by
    rw [← moves, ← Path.moves_join _ relative, ← settled, ← Path.canonical_eq_iff, canonical]
  rw [leads]
  by_cases given : r.importer.directory.isAbsolute = true
  · obtain ⟨down, deep, start⟩ := Path.settle_absolute given
    have way := (Path.relative_below start below settled absolute).2
    rw [Path.join_absolute cwd given, way]
    exact iff_of_true (Path.settle_append_wayBetween start deep below) (.inl given)
  · have apart := Path.relative_apart (by simpa using given) absolute
    have segments := Path.segmentMoves_canonical absolute settled
    have root : (cwd.join r.importer.directory).canonical = ⟨"/"⟩ ↔
        Path.settle (cwd.join r.importer.directory).moves = [.root] :=
      Path.canonical_eq_iff (q := ⟨"/"⟩)
    rw [apart, segments, Path.settle_append_descends _ below, root,
      or_iff_right given]
    constructor
    · intro h
      exact List.append_cancel_right (h.trans (List.singleton_append).symm)
    · intro h
      rw [h, List.singleton_append]

end Reference

/-! ## Imported files -/

namespace Toolchain

variable {t : Toolchain} {here : Path.Location} {s : Source}

/-- The imports of a draft are links to the files that the addresses of their statements lead to. -/
theorem Drafted.exists_of_mem_imports {d : Draft × List Call} (h : Drafted t here s d) {link : Link}
    (mem : link ∈ d.1.product.imports) :
    ∃ made : Import, link = t.link s made ∧ (s.importer here t.identifier).locate
      (String.ofList (Statement.url ⟨made.statement.toList⟩)) = .ok made.file := by
  cases h with
  | nameless => cases mem
  | unscoped => cases mem
  | unscanned => cases mem
  | complete named kept scanned =>
    obtain ⟨made, hmade, rfl⟩ := List.mem_map.1 mem
    obtain ⟨binds, _⟩ := Importer.scan_eq_ok_iff.1 scanned
    obtain ⟨candidate, _, found, _⟩ := binds.find_eq made hmade
    have located := (Importer.find_eq_ok_iff.1 found).1
    rw [binds.url_eq made hmade] at located
    exact ⟨made, rfl, located⟩

/-- The specifier of an import leads back to the imported file just where the directory of the
importing file begins at the root, or is the root. -/
theorem specifier_leads_back_iff (optimize : Optimization → Optimized) {cwd : Path}
    (anchored : cwd.isAbsolute = true) {s : Source} (untagged : s.tag = none) {p : Product}
    (built : p = ({ Toolchain.usual with optimize }.build (.ok cwd) s).1 ∨
      p = ({ Toolchain.usual with optimize }.buildOptimized (.ok cwd) s).1)
    {link : Link} (mem : link ∈ p.imports) (clean : '\\' ∉ link.file.text.toList) :
    ((cwd.join s.file.directory).join ⟨link.specifier⟩).canonical = link.file ↔
      s.file.directory.isAbsolute = true ∨ (cwd.join s.file.directory).canonical = ⟨"/"⟩ := by
  generalize tools : { Toolchain.usual with optimize } = t at built
  have usual : t.specifier = Reference.specifier := tools ▸ rfl
  rw [(name_imports_of_built built).2] at mem
  obtain ⟨made, rfl, located⟩ := (t.drafted _ s).exists_of_mem_imports mem
  have here : ∀ dir, (Except.ok cwd : Path.Location) = .ok dir → dir.isAbsolute = true := by
    rintro _ ⟨⟩
    exact anchored
  obtain ⟨path, absolute, file⟩ := Importer.exists_of_locate here located
  have specifier : (t.link s made).specifier = (s.reference made).way := by
    show t.specifier (s.reference made) = _
    rw [usual]
    exact Reference.specifier_of_untagged untagged
  have reached : (s.reference made).importee = path.canonical := file
  rw [specifier]
  refine (s.reference made).way_leads_back_iff cwd ?_ ?_ clean
  · rw [reached]
    exact Path.isAbsolute_canonical absolute
  · rw [reached]
    exact Path.canonical_canonical _

/-- A file given relative to the working directory: its import of a neighbour is looked for in a
directory of the whole path below. Nothing is left of the stylesheet to be optimized, and what is
blank is answered as it is. -/
theorem specifier_leads_astray :
    let t : Toolchain :=
      { Toolchain.usual with optimize := fun request => { text := some request.text } }
    let cwd : Path := ⟨"/tmp"⟩
    let s : Source := .plain ⟨"main.css"⟩ "@import './a.css';"
    let link : Link := ⟨"@import './a.css';", ⟨"/tmp/a.css"⟩, ".//tmp/a.css", "aCss"⟩
    (link ∈ (t.build (.ok cwd) s).1.imports ∧ link ∈ (t.buildOptimized (.ok cwd) s).1.imports) ∧
      ((cwd.join s.file.directory).join ⟨link.specifier⟩).canonical ≠ link.file := by
  intro t cwd s link
  have astray : ∀ p : Product, p = (t.build (.ok cwd) s).1 → link ∈ p.imports →
      ((cwd.join s.file.directory).join ⟨link.specifier⟩).canonical ≠ link.file := by
    intro p built mem back
    have condition := (specifier_leads_back_iff _ (by decide) rfl (.inl built) mem
      (by decide)).1 back
    exact absurd condition (by decide +kernel)
  have mem : link ∈ (t.build (.ok cwd) s).1.imports := by decide +kernel
  have mem' : link ∈ (t.buildOptimized (.ok cwd) s).1.imports := by decide +kernel
  exact ⟨⟨mem, mem'⟩, astray _ rfl mem⟩

end Toolchain

end StyleModule
