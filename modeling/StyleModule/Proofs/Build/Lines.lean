import StyleModule.Proofs.Build.Names
import StyleModule.Proofs.Build.Optimized
import StyleModule.Proofs.Build.Specifiers
import StyleModule.Proofs.Path.Shared
import StyleModule.Proofs.Program.Lines

/-!
# The import lines of a build

A specifier is pasted between single quotes as it is. What stands in it comes from the address that
the statement names, from the tag and the mode, and from dots and slashes: the importing file's own
directories are never written, and neither are quotes and backslashes. So the one thing that can
break an import line is a line break in an address (`Drafted.eq_break_of_needsEscape`), and a build
is read back line by line just where no specifier has one (`readLines_output_iff`). The file at the
root is an exception: it has no directory, so its specifiers are written from the working directory.
-/

namespace StyleModule

open Token (needsEscape)

/-! ## What a specifier is written with -/

namespace Reference

variable {r : Reference} {c : Char}

/-- Nothing needs an escape in a query, if nothing does in the tag and the mode. -/
theorem plain_query {tag : String} (tagged : ∀ c ∈ tag.toList, needsEscape c = false)
    (mode : ∀ mode ∈ r.mode, ∀ c ∈ mode.toList, needsEscape c = false) :
    ∀ c ∈ r.queryText tag, needsEscape c = false := by
  have letters : ∀ c : Char, c.isLower = true → needsEscape c = false := by
    intro c lower
    rw [← Bool.not_eq_true]
    intro breaks
    have cases : c = '\'' ∨ c = '\\' ∨ c = '\r' ∨ c = '\n' := by
      simpa [needsEscape, or_assoc] using breaks
    rcases cases with rfl | rfl | rfl | rfl <;> cases lower
  have entries := forall_mem_query letters tagged fun specific named =>
    mode specific (Option.filter_eq_some_iff.1 named).1
  intro c mem
  rcases mem_queryText mem with rfl | ⟨entry, asked, within⟩
  · rfl
  rcases mem_entryText within with rfl | within | within
  · rfl
  · exact (entries entry asked).1 c within
  · exact (entries entry asked).2 c within

/-- What needs an escape in a specifier stands in the way, if nothing does in the tag and the
mode. -/
theorem mem_way_of_needsEscape (tag : ∀ tag ∈ r.tag, ∀ c ∈ tag.toList, needsEscape c = false)
    (mode : ∀ mode ∈ r.mode, ∀ c ∈ mode.toList, needsEscape c = false)
    (h : c ∈ r.specifier.toList) (breaks : needsEscape c = true) : c ∈ r.way.toList := by
  cases tagged : r.tag with
  | none => rwa [specifier_of_untagged tagged] at h
  | some own =>
    rw [toList_specifier tagged] at h
    rcases List.mem_append.1 h with h | h
    · exact h
    rcases List.mem_cons.1 h with rfl | h
    · cases breaks
    · rw [plain_query (tag own tagged) mode c h] at breaks
      cases breaks

end Reference

/-! ## What an import is located by -/

theorem Path.mem_join {base target : Path} {c : Char} (h : c ∈ (base.join target).text.toList) :
    c ∈ base.text.toList ∨ c = '/' ∨ c ∈ target.text.toList := by
  rw [join, String.toList_ofList] at h
  exact mem_push h

/-- The way to what an address leads to is written with what the address is written with, with dots
and slashes; where the importing file is the root, also with what the working directory is written
with. -/
theorem Importer.mem_relative_of_locate {importer : Importer} {url : String} {file : Path}
    (absolute : importer.file.isAbsolute = true) (located : importer.locate url = .ok file)
    {c : Char} (h : c ∈ (importer.file.directory.relative file).text.toList) :
    c = '.' ∨ c = '/' ∨ c ∈ url.toList ∨
      (importer.file.directory.isAbsolute = false ∧
        ∃ cwd, importer.here = .ok cwd ∧ c ∈ cwd.text.toList) := by
  have outer : importer.file.directory.isAbsolute = false →
      importer.file.directory = Path.current := by
    intro relative
    have within := (Path.directory_of_isAbsolute absolute).resolve_left
    rw [relative] at within
    exact (within Bool.false_ne_true).2
  have own : ∀ {path : Path}, file = path.canonical →
      c = '.' ∨ c = '/' ∨ c ∈ path.text.toList := by
    rintro path rfl
    rcases Path.mem_relative h with dot | slash | mem
    · exact .inl dot
    · exact .inr (.inl slash)
    · exact Path.mem_canonical mem
  rw [locate] at located
  by_cases away : (⟨url⟩ : Path).isAbsolute = true
  · rw [if_pos away] at located
    exact (own (Except.ok.inj located).symm).imp_right (Or.imp_right .inl)
  rw [if_neg away] at located
  split at located
  next resolved =>
    cases located
    unfold Path.resolve at resolved
    by_cases below : importer.file.directory.isAbsolute = true
    · rw [if_pos (Path.isAbsolute_join below _)] at resolved
      rw [← Except.ok.inj resolved] at h
      exact (Path.mem_relative_join below _ h).imp_right (Or.imp_right .inl)
    have relative : importer.file.directory.isAbsolute = false := by simpa using below
    have current : ¬ (Path.current.join ⟨url⟩).isAbsolute = true := by
      have relative : url.toList.head? ≠ some '/' :=
        Path.isAbsolute_eq_false_iff.1 (by simpa using away)
      have front := Path.head?_push Path.current.text.toList relative
      rw [Path.isAbsolute, Path.join, String.toList_ofList, beq_iff_eq, front]
      decide
    rw [outer relative, if_neg current] at resolved
    cases place : importer.here with
    | error reason => rw [place] at resolved; cases resolved
    | ok cwd =>
      rw [place] at resolved
      rcases own (Except.ok.inj resolved).symm with dot | slash | mem
      · exact .inl dot
      · exact .inr (.inl slash)
      rcases Path.mem_join mem with mem | slash | mem
      · exact .inr (.inr (.inr ⟨relative, cwd, rfl, mem⟩))
      · exact .inr (.inl slash)
      rcases Path.mem_join mem with dot | slash | mem
      · exact .inl (List.mem_singleton.1 dot)
      · exact .inr (.inl slash)
      · exact .inr (.inr (.inl mem))
  next => cases located

namespace Toolchain

variable {t : Toolchain} {here : Path.Location} {s : Source}

/-- What needs an escape in a specifier is a line break of the address, or, for a file at the root,
stands in the working directory's path. -/
theorem Drafted.eq_break_of_needsEscape {d : Draft × List Call} (h : Drafted t here s d)
    (usual : t.specifier = Reference.specifier) (absolute : s.file.isAbsolute = true)
    (tag : ∀ tag ∈ s.tag, ∀ c ∈ tag.toList, needsEscape c = false)
    (mode : ∀ mode ∈ s.mode, ∀ c ∈ mode.toList, needsEscape c = false) {link : Link}
    (mem : link ∈ d.1.product.imports) {c : Char} (hc : c ∈ link.specifier.toList)
    (breaks : needsEscape c = true) :
    (c = '\r' ∨ c = '\n') ∧ c ∈ Statement.url ⟨link.statement.toList⟩ ∨
      c ≠ '\\' ∧ s.file.directory.isAbsolute = false ∧
        ∃ cwd, here = .ok cwd ∧ c ∈ cwd.text.toList := by
  obtain ⟨made, rfl, located⟩ := h.exists_of_mem_imports mem
  rw [show (t.link s made).specifier = t.specifier (s.reference made) from rfl, usual] at hc
  obtain ⟨slashed, written⟩ :=
    Reference.mem_way (Reference.mem_way_of_needsEscape tag mode hc breaks)
  have other : ∀ {d : Char}, needsEscape d = false → c ≠ d := by
    rintro d plain rfl
    rw [plain] at breaks
    cases breaks
  have way := ((written.resolve_left (other rfl)).resolve_left (other rfl))
  have root : (s.importer here t.identifier).file.isAbsolute = true := absolute
  have source := Importer.mem_relative_of_locate root located way
  rcases (source.resolve_left (other rfl)).resolve_left (other rfl) with url | outside
  · rw [String.toList_ofList] at url
    have unquoted : c ≠ '\'' := by
      rintro rfl
      obtain ⟨_, kept⟩ := List.mem_filter.1 url
      cases kept
    have cases : c = '\'' ∨ c = '\\' ∨ c = '\r' ∨ c = '\n' := by
      simpa [needsEscape, or_assoc] using breaks
    exact .inl ⟨(cases.resolve_left unquoted).resolve_left slashed, url⟩
  · exact .inr ⟨slashed, outside⟩

/-- A program is generated for a product with a name, from the product as it is. -/
theorem output_eq {p : Product} (built : p = (t.build here s).1 ∨ p = (t.buildOptimized here s).1)
    (generated : p.output ≠ "") : p.name ≠ "" ∧ p.output = p.program.render s.format := by
  obtain ⟨ungenerated, _⟩ := (t.drafted here s).ungenerated
  rw [build_eq, buildOptimized_eq] at built
  generalize t.draft here s = d at ungenerated built
  by_cases nameless : d.1.product.name = ""
  · rw [if_pos nameless, if_pos nameless, or_self] at built
    rw [built] at generated
    exact absurd ungenerated generated
  · rw [if_neg nameless, if_neg nameless] at built
    rcases built with rfl | rfl
    · exact ⟨nameless, rfl⟩
    · dsimp only at generated ⊢
      split at generated
      next => exact absurd ungenerated generated
      next ok =>
        rw [if_neg ok]
        exact ⟨nameless, rfl⟩

/-- What is wrong in an import line of a build is a line break in an address, or, for a file at the
root, something in the working directory's path; and a build is read back line by line just where
each of its specifiers can stand between single quotes as it is. -/
theorem readLines_output_iff (optimize : Optimization → Optimized) (here : Path.Location)
    {s : Source} (absolute : s.file.isAbsolute = true)
    (tag : ∀ tag ∈ s.tag, ∀ c ∈ tag.toList, needsEscape c = false)
    (mode : ∀ mode ∈ s.mode, ∀ c ∈ mode.toList, needsEscape c = false) {p : Product}
    (built : p = ({ Toolchain.usual with optimize }.build here s).1 ∨
      p = ({ Toolchain.usual with optimize }.buildOptimized here s).1) :
    (∀ link ∈ p.imports, ∀ c ∈ link.specifier.toList, needsEscape c = true →
      (c = '\r' ∨ c = '\n') ∧ c ∈ Statement.url ⟨link.statement.toList⟩ ∨
        c ≠ '\\' ∧ s.file.directory.isAbsolute = false ∧
          ∃ cwd, here = .ok cwd ∧ c ∈ cwd.text.toList) ∧
      (p.output ≠ "" →
        (Script.readLines s.format p.output.toList =
            some (p.imports.map (fun link => .imports link.binding) ++
              [.binds p.name (p.imports.map Link.name) p.text, .exports p.name]) ↔
          ∀ link ∈ p.imports, ∀ c ∈ link.specifier.toList, needsEscape c = false)) := by
  generalize tools : { Toolchain.usual with optimize } = t at built
  have draft := t.drafted here s
  constructor
  · intro link mem c hc breaks
    rw [(name_imports_of_built built).2] at mem
    exact draft.eq_break_of_needsEscape (tools ▸ rfl) absolute tag mode mem hc breaks
  · intro generated
    obtain ⟨named, output⟩ := output_eq built generated
    have bindings : p.program.imports.map Binding.name = p.imports.map Link.name := by
      rw [Product.program, List.map_map]
      rfl
    have words : ∀ name ∈ p.program.name :: p.program.imports.map Binding.name,
        isWord name.toList = true := by
      intro name mem
      have bound : name ∈ p.boundNames := by
        rw [bindings] at mem
        rw [Product.boundNames, if_neg named]
        exact mem
      rw [boundNames_of_built built] at bound
      exact (draft.boundNames_legal (tools ▸ rfl) name bound).isWord
    have importLines : p.program.imports.map Line.imports =
        p.imports.map fun link => .imports link.binding := by
      rw [Product.program, List.map_map]
      rfl
    have lines := Program.readLines_render_iff words s.format
    rw [importLines, bindings] at lines
    rw [output]
    exact lines.trans List.forall_mem_map

/-- A line break before the semicolon of an import statement: it stands in the specifier, and what
is generated is no program of one import. -/
theorem readLines_output_broken :
    let s : Source := .plain ⟨"/d/main.css"⟩ "@import './a.css'\n;.x\x7b\x7d"
    let link : Link := ⟨"@import './a.css'\n;", ⟨"/d/a.css\n"⟩, "./a.css\n", "aCss"⟩
    let p := (Toolchain.usual.build (.ok ⟨"/tmp"⟩) s).1
    link ∈ p.imports ∧ p.output ≠ "" ∧
      Script.readLines s.format p.output.toList ≠
        some (p.imports.map (fun link => .imports link.binding) ++
          [.binds p.name (p.imports.map Link.name) p.text, .exports p.name]) := by
  intro s link
  have broken : ∀ p : Product, p = (Toolchain.usual.build (.ok ⟨"/tmp"⟩) s).1 → link ∈ p.imports →
      p.output ≠ "" → Script.readLines s.format p.output.toList ≠
        some (p.imports.map (fun link => .imports link.binding) ++
          [.binds p.name (p.imports.map Link.name) p.text, .exports p.name]) := by
    intro p built mem generated read
    have lines := (readLines_output_iff Css.compact (.ok ⟨"/tmp"⟩) (by decide)
      (fun _ none => by cases none) (fun _ none => by cases none) (.inl built)).2 generated
    have plain := lines.1 read link mem '\n' (by decide)
    cases plain
  have mem : link ∈ (Toolchain.usual.build (.ok ⟨"/tmp"⟩) s).1.imports := by decide +kernel
  have generated : (Toolchain.usual.build (.ok ⟨"/tmp"⟩) s).1.output ≠ "" := by decide +kernel
  exact ⟨mem, generated, broken _ rfl mem generated⟩

end Toolchain

end StyleModule
