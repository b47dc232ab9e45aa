import StyleModule.Proofs.Build.Lines
import StyleModule.Proofs.Name.Words

/-!
# Names that a module may not declare

Some words are no keywords, and still a module may not declare them: strict code binds neither
`eval` nor `arguments`, and in the format `cjs` the program itself uses `require` and `module`, and
the wrapper around it binds these and three more.

A file asks for such a word by its name, as for any other. A program declares one just where its own
file asks for it or an imported one does (`declares_reserved_iff`): a number behind a name never
makes one, and a word that is asked for is handed out to the first file that asks. The two words
that begin with two underscores cannot be asked for. A file whose name spells words asks for a
reserved word just where its name spells that word and no other.
-/

namespace StyleModule

/-- The words that a module of a format may not declare. -/
def Format.reserved : Format → List String
  | .esm => ["eval", "arguments"]
  | .cjs => ["eval", "arguments", "require", "module", "exports", "__filename", "__dirname"]

/-- The names that a line declares. -/
def Line.declared : Line → List String
  | .imports binding => [binding.name]
  | .binds name _ _ => [name]
  | .exports _ => []

/-- A program that is read back declares the names of its imports and its own. -/
theorem declared_lines (p : Program) :
    (p.imports.map Line.imports ++
        [Line.binds p.name (p.imports.map Binding.name) p.text, .exports p.name]).flatMap
      Line.declared = p.imports.map Binding.name ++ [p.name] := by
  have each : (p.imports.map Line.imports).flatMap Line.declared = p.imports.map Binding.name := by
    rw [List.flatMap_map, List.map_eq_flatMap]
    rfl
  rw [List.flatMap_append, each]
  rfl

/-! ## Reserved words -/

/-- A reserved word begins with two underscores, or is written in small letters and no keyword. -/
theorem Format.reserved_cases (format : Format) :
    ∀ word ∈ format.reserved, ['_', '_'] <+: word.toList ∨
      word.toList.all Char.isLower = true ∧ word ∉ Name.keywords := by
  cases format <;> decide

theorem Format.reserved_no_digit (format : Format) :
    ∀ word ∈ format.reserved, ∀ c ∈ word.toList, c.isDigit = false := by
  have letters : ∀ word ∈ format.reserved, word.toList.any Char.isDigit = false := by
    cases format <;> decide
  intro word reserved c mem
  exact Bool.eq_false_iff.2 (List.any_eq_false.1 (letters word reserved) c mem)

theorem Format.reserved_ne_nil (format : Format) : "" ∉ format.reserved := by
  cases format <;> decide

/-- No legal name begins with two underscores. -/
theorem Name.Legal.not_underscores {name : String} (legal : Legal name) :
    ¬ ['_', '_'] <+: name.toList := by
  rintro ⟨s, begins⟩
  obtain ⟨c, rest, shape, _, alphanum⟩ := legal.shape
  cases begins.trans shape
  cases alphanum '_' List.mem_cons_self

/-- A file whose name spells words asks for a reserved word just where its name spells that word and
no other. -/
theorem Name.Spells.binding_eq_reserved_iff {words : List (List Char)} {mode : Option String}
    {file : Path} (h : Spells words (stem mode file)) {format : Format} {word : String}
    (reserved : word ∈ format.reserved) :
    binding toIdentifier mode file = .ok word ↔ words = [word.toList] := by
  have some : word ≠ "" := by
    rintro rfl
    exact format.reserved_ne_nil reserved
  rcases format.reserved_cases word reserved with underscores | ⟨small, free⟩
  · have unasked : binding toIdentifier mode file ≠ .ok word := fun asked =>
      (legal_of_binding asked).not_underscores underscores
    have unspelled : words ≠ [word.toList] := by
      rintro rfl
      have mem : '_' ∈ word.toList := underscores.subset List.mem_cons_self
      cases (h.isWord.2 _ List.mem_cons_self).plain '_' mem
    exact iff_of_false unasked unspelled
  · rw [binding_eq_ok_iff, and_iff_left some]
    refine Spells.toIdentifier_eq_iff ?_ (List.all_eq_true.1 small) free
    rwa [String.toList_ofList]

namespace Toolchain

variable {t : Toolchain} {here : Path.Location} {s : Source}

/-- A word without digits is bound just where a file of the build asks for it, be it the source's
own or an imported one. -/
theorem Drafted.mem_boundNames_iff {d : Draft × List Call} (h : Drafted t here s d)
    (named : d.1.product.name ≠ "") {word : String}
    (letters : ∀ c ∈ word.toList, c.isDigit = false) :
    word ∈ d.1.product.boundNames ↔
      ∃ file ∈ s.file :: d.1.product.imports.map Link.file,
        Name.binding t.identifier s.specificMode file = .ok word := by
  have lone : ∀ {p : Product}, p.imports = [] → p.name ≠ "" →
      Name.binding t.identifier s.specificMode s.file = .ok p.name →
      (word ∈ p.boundNames ↔ ∃ file ∈ s.file :: p.imports.map Link.file,
        Name.binding t.identifier s.specificMode file = .ok word) := by
    intro p none some own
    rw [Product.boundNames_of_imports_eq_nil none, if_neg some, none, List.map_nil]
    simp only [List.mem_singleton, exists_eq_left, own, Except.ok.injEq, eq_comm]
  cases h with
  | nameless => exact absurd rfl named
  | unscoped own => exact lone rfl named own
  | unscanned own => exact lone rfl named own
  | @complete name css scan calls names own kept scanned =>
    obtain ⟨binds, _⟩ := Importer.scan_eq_ok_iff.1 scanned
    have files : (scan.imports.map (t.link s)).map Link.file = scan.imports.map Import.file := by
      rw [List.map_map]
      rfl
    rw [files]
    constructor
    · intro bound
      rw [Product.boundNames, if_neg named, map_name_link] at bound
      rcases List.mem_cons.1 bound with rfl | bound
      · exact ⟨s.file, List.mem_cons_self, own⟩
      obtain ⟨made, hmade, rfl⟩ := List.mem_map.1 bound
      obtain ⟨candidate, taken, found, fresh⟩ := binds.find_eq made hmade
      have asked := (Importer.find_eq_ok_iff.1 found).2
      refine ⟨made.file, List.mem_cons_of_mem _ (List.mem_map_of_mem hmade), ?_⟩
      rcases taken.fresh_cases candidate with same | ⟨k, numbered⟩
      · rw [fresh, same]
        exact asked
      · obtain ⟨c, mem, digit⟩ := NameSet.exists_digit_mem_numbered candidate k
        rw [fresh, numbered] at letters
        rw [letters c mem] at digit
        cases digit
    · rintro ⟨file, mem, asked⟩
      rcases List.mem_cons.1 mem with rfl | mem
      · rw [Product.boundNames, if_neg named, Except.ok.inj (asked.symm.trans own)]
        exact List.mem_cons_self
      · obtain ⟨made, hmade, rfl⟩ := List.mem_map.1 mem
        rw [boundNames_complete own scanned]
        exact List.mem_reverse.2 (binds.mem_of_binding made hmade word asked)

/-! ## Programs -/

/-- A program declares a reserved word just where a file of the build asks for it; a file whose name
spells words asks for one just where it spells that word and no other, and no file asks for one that
begins with two underscores. Where every specifier can stand between single quotes as it is, these
are the names that the text of the program declares. -/
theorem declares_reserved_iff (optimize : Optimization → Optimized) (here : Path.Location)
    {s : Source} {p : Product}
    (built : p = ({ Toolchain.usual with optimize }.build here s).1 ∨
      p = ({ Toolchain.usual with optimize }.buildOptimized here s).1)
    (generated : p.output ≠ "") :
    (∀ word ∈ s.format.reserved, word ∈ p.boundNames ↔
        ∃ file ∈ s.file :: p.imports.map Link.file,
          Name.binding Name.toIdentifier s.specificMode file = .ok word) ∧
      (∀ file words, Name.Spells words (Name.stem s.specificMode file) →
        ∀ word ∈ s.format.reserved,
          Name.binding Name.toIdentifier s.specificMode file = .ok word ↔ words = [word.toList]) ∧
      ("__filename" ∉ p.boundNames ∧ "__dirname" ∉ p.boundNames) ∧
      ((∀ link ∈ p.imports, ∀ c ∈ link.specifier.toList, Token.needsEscape c = false) →
        ∃ lines, Script.readLines s.format p.output.toList = some lines ∧
          (lines.flatMap Line.declared).Perm p.boundNames) := by
  generalize tools : { Toolchain.usual with optimize } = t at built
  have usual : t.identifier = Name.toIdentifier := tools ▸ rfl
  have draft := t.drafted here s
  obtain ⟨named, output⟩ := output_eq built generated
  obtain ⟨name, imports⟩ := name_imports_of_built built
  have boundNames := boundNames_of_built built
  have legal : ∀ name ∈ p.boundNames, Name.Legal name := boundNames ▸ draft.boundNames_legal usual
  refine ⟨?_, fun file words spells word reserved => spells.binding_eq_reserved_iff reserved,
    ⟨fun mem => (legal _ mem).not_underscores (by decide),
      fun mem => (legal _ mem).not_underscores (by decide)⟩, ?_⟩
  · intro word reserved
    have declared := draft.mem_boundNames_iff (name ▸ named)
      (s.format.reserved_no_digit word reserved)
    rwa [usual, ← boundNames, ← imports] at declared
  · intro plain
    have words : ∀ name ∈ p.program.name :: p.program.imports.map Binding.name,
        isWord name.toList = true := by
      rw [← Product.boundNames_eq named]
      exact fun name mem => (legal name mem).isWord
    have read := (Program.readLines_render_iff words s.format).2 (List.forall_mem_map.2 plain)
    rw [← output] at read
    refine ⟨_, read, ?_⟩
    rw [declared_lines, Product.boundNames_eq named]
    exact List.perm_append_comm

/-- A file that is called as one of the words: its program declares the word. -/
theorem declares_reserved_eval :
    let s : Source := .plain ⟨"/d/eval"⟩ ".a\x7b\x7d"
    let p := (Toolchain.usual.build (.ok ⟨"/tmp"⟩) s).1
    p.output ≠ "" ∧ "eval" ∈ s.format.reserved ∧ "eval" ∈ p.boundNames := by
  intro s
  have asked : Name.binding Name.toIdentifier s.specificMode s.file = .ok "eval" := by
    decide +kernel
  have declares : ∀ p : Product, p = (Toolchain.usual.build (.ok ⟨"/tmp"⟩) s).1 → p.output ≠ "" →
      p.output ≠ "" ∧ "eval" ∈ s.format.reserved ∧ "eval" ∈ p.boundNames := by
    intro p built generated
    have reserved : "eval" ∈ s.format.reserved := by decide
    have words := (declares_reserved_iff Css.compact (.ok ⟨"/tmp"⟩) (.inl built) generated).1
    exact ⟨generated, reserved, (words "eval" reserved).2 ⟨s.file, List.mem_cons_self, asked⟩⟩
  exact declares _ rfl (by decide +kernel)

end Toolchain

end StyleModule
