import StyleModule.Proofs.Import.Binds
import StyleModule.Proofs.Import.Padding

/-!
# Statements that lead elsewhere

A scan leaves a stylesheet as it is just where no statement leads to a file of the project
(`scan_eq_self_iff`). Two forms of statements never do: `url(` with an address of the network in it,
and a string with a tilde in front. Quotes and blanks may stand around the address as they like, and
letter case is free, since the two checks set aside just these (`NamesElsewhere.not_isLocal`). Nor
does it matter whether the working directory can be told: nothing is looked up for such a statement.
-/

namespace StyleModule

namespace Statement

open Css (isQuote isQuote_iff)

/-- A statement that names something outside the project, whatever stands behind: an address of the
network behind `url(`, with blanks and quotes in between, or a package in a string. -/
inductive NamesElsewhere : List Char → Prop
  | network {word blanks opening between address : List Char}
      (keyword : word.map Char.toLower = importWord) (blank : Text.allBlank blanks = true)
      (url : opening.map Char.toLower = urlWord)
      (padding : ∀ c ∈ between, Text.isBlank c = true ∨ isQuote c = true)
      (network : NetworkAddress address) :
      NamesElsewhere (word ++ (blanks ++ (opening ++ (between ++ address))))
  | package {word blanks rest : List Char} {quote : Char}
      (keyword : word.map Char.toLower = importWord) (blank : Text.allBlank blanks = true)
      (opens : isQuote quote = true) :
      NamesElsewhere (word ++ (blanks ++ quote :: '~' :: rest))

/-! ## Addresses of the network -/

theorem toLower_of_isQuote {c : Char} (quote : isQuote c = true) : c.toLower = c := by
  rcases isQuote_iff.1 quote with rfl | rfl <;> rfl

/-- Blanks and quotes are set aside. -/
theorem compactOf_between {between : List Char}
    (padding : ∀ c ∈ between, Text.isBlank c = true ∨ isQuote c = true) :
    compactOf between = [] := by
  refine List.filter_eq_nil_iff.2 fun d mem => ?_
  obtain ⟨c, here, rfl⟩ := List.mem_map.1 mem
  rcases padding c here with blank | quote
  · simp [toLower_of_isBlank blank, blank]
  · simp [toLower_of_isQuote quote, quote]

/-- What an address of the network begins with is not set aside. -/
theorem NetworkAddress.prefix_compactOf {address : List Char} (network : NetworkAddress address) :
    "http".toList <+: compactOf address ∨ "//".toList <+: compactOf address := by
  have kept : ∀ mark, mark <+: address.map Char.toLower →
      mark.filter (fun c => !isQuote c && !Text.isBlank c) <+: compactOf address :=
    fun _ begins => begins.filter _
  exact network.imp (kept _) (kept _)

theorem isRemote_of_network {word blanks opening between address : List Char}
    (blank : Text.allBlank blanks = true) (url : opening.map Char.toLower = urlWord)
    (padding : ∀ c ∈ between, Text.isBlank c = true ∨ isQuote c = true)
    (network : NetworkAddress address) :
    isRemote (word ++ (blanks ++ (opening ++ (between ++ address)))) = true := by
  have opens : urlWord <:+:
      (word ++ (blanks ++ (opening ++ (between ++ address)))).map Char.toLower := by
    simp only [List.map_append, url]
    exact ((List.prefix_append urlWord _).isInfix.trans (List.suffix_append _ _).isInfix).trans
      (List.suffix_append _ _).isInfix
  have bracket : compactOf opening = urlWord := by
    rw [compactOf, url]
    rfl
  have compact : compactOf (word ++ (blanks ++ (opening ++ (between ++ address)))) =
      compactOf word ++ (urlWord ++ compactOf address) := by
    simp only [compactOf_append, compactOf_of_allBlank blank, compactOf_between padding, bracket,
      List.nil_append]
  have found : ∀ mark, mark <+: compactOf address →
      urlWord ++ mark <:+: compactOf word ++ (urlWord ++ compactOf address) := by
    intro mark begins
    exact ((List.prefix_append_right_inj urlWord).2 begins).isInfix.trans
      (List.suffix_append _ _).isInfix
  rw [isRemote_eq, compact, Bool.and_eq_true, Bool.or_eq_true, Text.contains_iff_infix,
    Text.contains_iff_infix, Text.contains_iff_infix]
  exact ⟨opens, network.prefix_compactOf.imp (found _) (found _)⟩

/-! ## Packages -/

/-- The address of a string with a tilde in front begins with the tilde. -/
theorem head?_url_of_package {word blanks rest : List Char} {quote : Char}
    (keyword : word.map Char.toLower = importWord) (blank : Text.allBlank blanks = true)
    (opens : isQuote quote = true) :
    (⟨word ++ (blanks ++ quote :: '~' :: rest)⟩ : Statement).url.head? = some '~' := by
  have length : word.length = importWord.length := by
    rw [← keyword, List.length_map]
  have dark : Text.isBlank quote = false := by
    rcases isQuote_iff.1 opens with rfl | rfl <;> rfl
  have dropped :
      Text.dropBlanks ((word ++ (blanks ++ quote :: '~' :: rest)).drop importWord.length) =
        quote :: '~' :: rest := by
    rw [← length, List.drop_left]
    refine (Text.cut_blanks blank ?_).2
    intro d mem
    rwa [← Option.some.inj mem]
  rw [url, clause, dropped]
  rcases isQuote_iff.1 opens with rfl | rfl <;> rfl

/-! ## What the statements lead to -/

theorem NamesElsewhere.not_isLocal {statement : Statement} (h : NamesElsewhere statement.text) :
    ¬ statement.IsLocal := by
  obtain ⟨text⟩ := statement
  dsimp only at h
  cases h with
  | network _ blank url padding network =>
    rw [IsLocal, ImportTarget.of, if_pos (isRemote_of_network blank url padding network)]
    intro leads
    cases leads
  | package keyword blank opens =>
    rw [IsLocal, ImportTarget.of, if_pos (head?_url_of_package keyword blank opens)]
    intro leads
    split at leads <;> cases leads

end Statement

namespace Importer

variable {importer : Importer}

/-- No import is made of statements just where none of them leads to a file of the project. -/
theorem binds_nil_iff {statements : List Statement} {names after : NameSet} :
    Binds importer statements names after [] ↔
      after = names ∧ ∀ statement ∈ statements, ¬ statement.IsLocal := by
  constructor
  · intro binds
    have same : after.names = names.names := binds.names_eq
    have none := binds.statements_eq
    rw [List.map_nil, eq_comm, List.map_eq_nil_iff, List.filter_eq_nil_iff] at none
    refine ⟨?_, by simpa using none⟩
    cases after
    cases names
    cases same
    rfl
  · rintro ⟨rfl, elsewhere⟩
    induction statements with
    | nil => exact .done
    | cons statement statements ih =>
      obtain ⟨here, later⟩ := List.forall_mem_cons.1 elsewhere
      exact .pass here (ih later)

/-- A scan finds nothing, and changes nothing, just where no statement leads to a file of the
project. -/
theorem scan_eq_self_iff {css : String} {names : NameSet} :
    importer.scan css names = (names, .ok ⟨[], css⟩) ↔
      ∀ statement ∈ statements css.toList, ¬ statement.IsLocal := by
  rw [scan_eq_ok_iff, binds_nil_iff]
  simp [removeAll]

/-- Statements that name addresses of the network or packages are not bound, and not touched,
whatever the importing file, its mode and the names taken are, and wherever the program runs. -/
theorem scan_elsewhere (importer : Importer) (names : NameSet) {css : String}
    (elsewhere : ∀ statement ∈ Statement.all (Css.withoutComments css.toList),
      Statement.NamesElsewhere statement.text) :
    importer.scan css names = (names, .ok ⟨[], css⟩) := by
  refine scan_eq_self_iff.2 fun statement mem => ?_
  rw [statements] at mem
  split at mem
  next => exact (elsewhere statement mem).not_isLocal
  next => cases mem

/-- Capitals, a tab among the quotes and blanks, conditions behind the addresses, and no working
directory. -/
theorem scan_elsewhere_gone :
    let importer : Importer := ⟨⟨"main.css"⟩, some "ios", .error "gone", Name.toIdentifier⟩
    let names := NameSet.singleton "mainCss"
    let css := "@import URL( \"\t//cdn/b.css\" ) screen;\n@IMPORT  '~pkg/a.css' print;.x\x7b\x7d"
    (∀ statement ∈ Statement.all (Css.withoutComments css.toList),
      Statement.NamesElsewhere statement.text) ∧
      importer.scan css names = (names, .ok ⟨[], css⟩) := by
  intro importer names css
  have found : Statement.all (Css.withoutComments css.toList) =
      [⟨"@import URL( \"\t//cdn/b.css\" ) screen;".toList⟩,
        ⟨"@IMPORT  '~pkg/a.css' print;".toList⟩] := by
    decide +kernel
  have network : Statement.NamesElsewhere ("@import".toList ++ (" ".toList ++
      ("URL(".toList ++ (" \"\t".toList ++ "//cdn/b.css\" ) screen;".toList)))) :=
    .network (by decide) (by decide) (by decide) (by simp [Css.isQuote, Text.isBlank])
      (by decide)
  have package : Statement.NamesElsewhere ("@IMPORT".toList ++ ("  ".toList ++
      '\'' :: '~' :: "pkg/a.css' print;".toList)) :=
    .package (by decide) (by decide) (by decide)
  have elsewhere : ∀ statement ∈ Statement.all (Css.withoutComments css.toList),
      Statement.NamesElsewhere statement.text := by
    rw [found]
    exact List.forall_mem_cons.2 ⟨network, List.forall_mem_singleton.2 package⟩
  exact ⟨elsewhere, scan_elsewhere importer names elsewhere⟩

end Importer

end StyleModule
