import Mathlib.Data.List.Forall2
import StyleModule.Proofs.Import.Commute
import StyleModule.Proofs.Import.Padding

/-!
# Scanning the imports at the head of a stylesheet

A stylesheet that begins with statements of plain addresses, and that mentions no import behind
them, is scanned exactly: each statement whose address is a file of the project's own becomes an
import, in order, and is deleted; all else stays in place (`scan_entries`).

A statement is deleted where its text first stands, and that is where it was found: no statement
begins in the blanks between others, and one that begins where another does is the same, so what a
scan leaves standing is never mistaken for what it deletes (`Entry.removeFirst_pass`).
-/

namespace StyleModule

namespace Statement

/-- Blanks, and behind them a statement of a plain address. -/
structure Entry where
  blanks : List Char
  wording : Wording
  address : List Char
  blank : Text.allBlank blanks = true
  plain : PlainAddress address
  some : address ≠ []

namespace Entry

def statement (entry : Entry) : Statement := entry.wording.statement entry.address

def text (entry : Entry) : List Char := entry.blanks ++ entry.statement.text

/-- Is the address neither one of the network, in brackets, nor one of a package? -/
def NamesFile (entry : Entry) : Prop :=
  ¬ (entry.wording.bracketed = true ∧ NetworkAddress entry.address) ∧
    entry.address.head? ≠ Option.some '~'

instance (entry : Entry) : Decidable entry.NamesFile := inferInstanceAs (Decidable (_ ∧ _))

/-- What is left of an entry when the statements that name files are deleted. -/
def left (entry : Entry) : List Char := if entry.NamesFile then entry.blanks else entry.text

/-! ## What is found -/

theorem url_statement (entry : Entry) : entry.statement.url = entry.address :=
  entry.wording.url_statement entry.plain entry.some

theorem isLocal_statement_iff (entry : Entry) : entry.statement.IsLocal ↔ entry.NamesFile := by
  have remote := entry.wording.isRemote_padded_iff .least entry.plain
  rw [Wording.padded_least] at remote
  rw [IsLocal, ImportTarget.of, url_statement, NamesFile, ← remote, statement]
  split
  next network => simp [network]
  next others => split <;> simp [*]

/-- Entries, with blanks behind them, are the head of a stylesheet. -/
theorem head (entries : List Entry) {blanks : List Char} (blank : Text.allBlank blanks = true) :
    Head (entries.map statement) (entries.flatMap text ++ blanks) := by
  induction entries with
  | nil => exact .blank blank
  | cons entry entries ih =>
    rw [List.flatMap_cons, text, List.append_assoc, List.append_assoc]
    exact .cons entry.blank entry.wording entry.plain ih

theorem filter_isLocal (entries : List Entry) :
    (entries.map statement).filter (·.IsLocal) =
      (entries.filter (·.NamesFile)).map statement := by
  rw [List.filter_map]
  congr 2
  funext entry
  exact decide_eq_decide.2 entry.isLocal_statement_iff

/-! ## What is deleted -/

theorem removeFirst_blanks (entry : Entry) {blanks : List Char}
    (blank : Text.allBlank blanks = true) (s : List Char) :
    Text.removeFirst entry.statement.text (blanks ++ s) =
      blanks ++ Text.removeFirst entry.statement.text s := by
  obtain ⟨word, text⟩ := entry.wording.exists_word entry.address
  rw [statement, text]
  exact removeFirst_skip (Text.not_mem_of_allBlank blank rfl) s

/-- A statement is not found in an entry that has another. -/
theorem removeFirst_pass {entry other : Entry} (differs : other.statement ≠ entry.statement)
    (s : List Char) : Text.removeFirst entry.statement.text (other.text ++ s) =
      other.text ++ Text.removeFirst entry.statement.text s := by
  obtain ⟨word, text⟩ := entry.wording.exists_word entry.address
  have absent : ¬ lead ++ word <+: other.statement.text ++ s := by
    rw [← text]
    exact fun same => differs (other.plain.eq_of_prefix entry.plain same)
  rw [Entry.text, List.append_assoc, removeFirst_blanks entry other.blank, List.append_assoc,
    statement, text]
  exact congrArg (other.blanks ++ ·) (other.wording.removeFirst other.plain absent)

/-- Texts are taken out behind a text that each of them passes over. -/
theorem foldl_removeFirst_append {taken : List Statement} {a : List Char}
    (pass : ∀ statement ∈ taken, ∀ s, Text.removeFirst statement.text (a ++ s) =
      a ++ Text.removeFirst statement.text s) (s : List Char) :
    taken.foldl (fun css statement => Text.removeFirst statement.text css) (a ++ s) =
      a ++ taken.foldl (fun css statement => Text.removeFirst statement.text css) s := by
  induction taken generalizing s with
  | nil => rfl
  | cons statement taken ih =>
    obtain ⟨here, later⟩ := List.forall_mem_cons.1 pass
    rw [List.foldl_cons, here, ih later, List.foldl_cons]

/-- The statements that name files are deleted where they stand, whatever is behind the entries. -/
theorem foldl_removeFirst_entries (entries : List Entry) (s : List Char) :
    ((entries.filter (·.NamesFile)).map statement).foldl
        (fun css statement => Text.removeFirst statement.text css) (entries.flatMap text ++ s) =
      entries.flatMap left ++ s := by
  induction entries with
  | nil => rfl
  | cons entry entries ih =>
    rw [List.flatMap_cons, List.flatMap_cons, List.append_assoc, List.append_assoc, left]
    by_cases names : entry.NamesFile
    · have deleted : Text.removeFirst entry.statement.text
          (entry.text ++ (entries.flatMap text ++ s)) =
            entry.blanks ++ (entries.flatMap text ++ s) := by
        rw [text, List.append_assoc, removeFirst_blanks entry entry.blank, Text.removeFirst_word]
      rw [List.filter_cons_of_pos (by simpa using names), List.map_cons, List.foldl_cons, deleted,
        if_pos names, foldl_removeFirst_append, ih]
      intro statement mem
      obtain ⟨other, _, rfl⟩ := List.mem_map.1 mem
      exact other.removeFirst_blanks entry.blank
    · rw [List.filter_cons_of_neg (by simpa using names), if_neg names, foldl_removeFirst_append, ih]
      intro statement mem
      obtain ⟨other, taken, rfl⟩ := List.mem_map.1 mem
      have named : other.NamesFile := by simpa using (List.mem_filter.1 taken).2
      refine removeFirst_pass ?_
      intro same
      rw [← isLocal_statement_iff, ← same, isLocal_statement_iff] at named
      exact names named

end Entry

end Statement

namespace Importer

variable {importer : Importer}

/-- The file of an absolute address is the address, made canonical, and that of another is found from
the directory of the importer. -/
theorem locate_eq_ok_iff {url : String} {file : Path} :
    importer.locate url = .ok file ↔
      if Path.isAbsolute ⟨url⟩ then file = Path.canonical ⟨url⟩
      else Path.resolve importer.here importer.file.directory ⟨url⟩ = .ok file := by
  rw [locate]
  split
  next => exact ⟨fun same => (Except.ok.inj same).symm, congrArg Except.ok ∘ Eq.symm⟩
  next =>
    cases Path.resolve importer.here importer.file.directory ⟨url⟩ <;> simp

/-- Each import is made of one of the statements that lead to files of the project, in order. -/
theorem Binds.forall₂ {statements : List Statement} {names after : NameSet}
    {imports : List Import} (h : Binds importer statements names after imports) :
    List.Forall₂ (fun statement made => made.statement = String.ofList statement.text ∧
        made.url = String.ofList statement.url ∧ importer.locate made.url = .ok made.file)
      (statements.filter (·.IsLocal)) imports := by
  induction h with
  | done => exact .nil
  | pass elsewhere _ ih =>
    rw [List.filter_cons_of_neg (by simpa using elsewhere)]
    exact ih
  | bind here found _ ih =>
    rw [List.filter_cons_of_pos (by simpa using here)]
    exact .cons ⟨rfl, rfl, (find_eq_ok_iff.1 found).1⟩ ih

/-- An import as it is made of an entry: the statement without the blanks around it, its address, and
the file of that, which for an absolute address is the address itself, made canonical, and for
another is found from the directory of the importer. -/
structure MadeOf (importer : Importer) (entry : Statement.Entry) (made : Import) : Prop where
  statement : made.statement.toList = entry.statement.text
  url : made.url.toList = entry.address
  file : if Path.isAbsolute ⟨made.url⟩ then made.file = Path.canonical ⟨made.url⟩
    else Path.resolve importer.here importer.file.directory ⟨made.url⟩ = .ok made.file

open Statement (Entry)

/-- A stylesheet that begins with statements of plain addresses, and behind them mentions no import. A
scan that succeeds makes an import of each statement that names a file, in order, and leaves the
stylesheet without these statements. -/
theorem scan_entries {entries : List Entry} {blanks : List Char} {css rest : String}
    {names after : NameSet} {scan : Scan} (blank : Text.allBlank blanks = true)
    (whole : css.toList = entries.flatMap Entry.text ++ (blanks ++ rest.toList))
    (silent : ¬ Mentions rest.toList) (scanned : importer.scan css names = (after, .ok scan)) :
    List.Forall₂ (MadeOf importer) (entries.filter (·.NamesFile)) scan.imports ∧
      scan.text.toList = entries.flatMap Entry.left ++ (blanks ++ rest.toList) := by
  obtain ⟨binds, text⟩ := scan_eq_ok_iff.1 scanned
  have found : statements css.toList = entries.map Entry.statement := by
    rw [whole, ← List.append_assoc]
    exact statements_append (Entry.head entries blank) silent
  rw [found] at binds
  constructor
  · have made := binds.forall₂
    rw [Entry.filter_isLocal, List.forall₂_map_left_iff] at made
    refine made.imp ?_
    rintro entry made ⟨statement, url, located⟩
    refine ⟨?_, ?_, locate_eq_ok_iff.1 located⟩
    · rw [statement, String.toList_ofList]
    · rw [url, entry.url_statement, String.toList_ofList]
  · rw [text, String.toList_ofList, binds.removeAll_eq, Entry.filter_isLocal, whole,
      Entry.foldl_removeFirst_entries]

/-- Two equal statements with one of the network and one of a package between them, an absolute
address, and a comment that mentions an import. -/
theorem scan_entries_twice :
    let importer : Importer := ⟨⟨"/d/main.css"⟩, none, .ok ⟨"/"⟩, Name.toIdentifier⟩
    let css :=
      "@import './a'; @import url(//p);@import '~q';@import url('/b');@import './a'; /* @import */"
    let scan : Scan := ⟨[⟨"@import './a';", "./a", ⟨"/d/a"⟩, "a"⟩,
        ⟨"@import url('/b');", "/b", ⟨"/b"⟩, "b"⟩, ⟨"@import './a';", "./a", ⟨"/d/a"⟩, "a3"⟩],
      " @import url(//p);@import '~q'; /* @import */"⟩
    (importer.scan css (NameSet.singleton "mainCss")).2 = .ok scan ∧
      ∃ entries : List Entry, entries.length = 5 ∧
        List.Forall₂ (MadeOf importer) (entries.filter (·.NamesFile)) scan.imports ∧
        scan.text.toList = entries.flatMap Entry.left ++ ([' '] ++ "/* @import */".toList) := by
  intro importer css scan
  have scanned : (importer.scan css (NameSet.singleton "mainCss")).2 = .ok scan := by
    decide +kernel
  have none : Text.allBlank [] = true := rfl
  have space : Text.allBlank [' '] = true := rfl
  have relative : Statement.PlainAddress "./a".toList := by decide +kernel
  have network : Statement.PlainAddress "//p".toList := by decide +kernel
  have package : Statement.PlainAddress "~q".toList := by decide +kernel
  have absolute : Statement.PlainAddress "/b".toList := by decide +kernel
  let quote : Statement.Quote := ⟨'\'', .inr rfl⟩
  let entries : List Entry := [⟨[], .string quote, _, none, relative, by simp⟩,
    ⟨[' '], .brackets, _, space, network, by simp⟩, ⟨[], .string quote, _, none, package, by simp⟩,
    ⟨[], .stringInBrackets quote, _, none, absolute, by simp⟩,
    ⟨[], .string quote, _, none, relative, by simp⟩]
  have whole : css.toList =
      entries.flatMap Entry.text ++ ([' '] ++ "/* @import */".toList) := by
    simp only [entries, List.flatMap_cons, List.flatMap_nil, Entry.text, Entry.statement]
    decide +kernel
  have silent : ¬ Mentions "/* @import */".toList := by decide +kernel
  have outcome : importer.scan css (NameSet.singleton "mainCss") =
    ((importer.scan css (NameSet.singleton "mainCss")).1, .ok scan) := by rw [← scanned]
  exact ⟨scanned, entries, rfl, scan_entries space whole silent outcome⟩

end Importer

end StyleModule
