import Mathlib.Data.List.Forall2
import StyleModule.Proofs.Import.Binds
import StyleModule.Proofs.Import.Padding

/-!
# Scanning a statement with blanks in it

How a statement is spaced ought to make no difference to what it imports. `scan_padded` says how far
it makes none. A statement is found where at least one blank stands behind `@import`, and then it is
the only one. Two blanks behind the bracket that `url` opens are dropped, but all others there count
as part of the address, and so do all before the closing bracket and before the semicolon: the
address then is another. Blanks that count in front of a tilde make a file of what is in a package.

Where no blank counts, the import is the same, because a scan looks at no more of a statement than
at its address and at what it leads to (`bindAll_congr`).
-/

namespace StyleModule

namespace Statement

open Css (liveFrom withoutComments)

/-- A statement that is found in a text stands in it. -/
theorem infix_of_mem_all {s : List Char} {statement : Statement} (mem : statement ∈ all s) :
    statement.text <:+: s := by
  fun_induction all s with
  | case1 => cases mem
  | case2 c s starts ih =>
    have cut := throughSemicolon_append (c :: s)
    rcases List.mem_cons.1 mem with rfl | later
    · exact ⟨[], afterSemicolon (c :: s), cut⟩
    · have behind : afterSemicolon (c :: s) <:+ c :: s := ⟨_, cut⟩
      exact (ih later).trans behind.isInfix
  | case3 c s starts ih => exact (ih mem).trans (List.suffix_cons c s).isInfix

namespace Wording

variable {address : List Char}

/-! ## The address -/

/-- Does no blank count as part of the address? -/
def Vanishes (wording : Wording) (padding : Padding) : Prop :=
  padding.beforeEnd = [] ∧
    (wording.bracketed = true → padding.behindOpening.length ≤ 2 ∧ padding.beforeClosing = [])

theorem vanishes_iff (wording : Wording) (padding : Padding) : wording.Vanishes padding ↔
    wording.strayBefore padding = [] ∧ wording.strayBehind padding = [] := by
  rw [Vanishes, strayBefore, strayBehind]
  cases wording.bracketed with
  | false => simp
  | true =>
    simp only [if_true, forall_const, List.drop_eq_nil_iff, List.append_eq_nil_iff]
    exact and_rotate

/-- A blank that counts changes the address. -/
theorem url_padded_eq_iff (wording : Wording) (padding : Padding) (plain : PlainAddress address)
    (some : address ≠ []) :
    (wording.padded padding address).url = address ↔ wording.Vanishes padding := by
  rw [wording.url_padded padding plain some, vanishes_iff]
  constructor
  · intro same
    have lengths := congrArg List.length same
    rw [List.length_append, List.length_append] at lengths
    rw [← List.length_eq_zero_iff, ← List.length_eq_zero_iff]
    omega
  · rintro ⟨before, behind⟩
    rw [before, behind, List.nil_append, List.append_nil]

/-- Blanks change what a statement leads to only where they count and hide a tilde. -/
theorem target_padded_eq_iff (wording : Wording) (padding : Padding) (plain : PlainAddress address)
    (some : address ≠ []) :
    ImportTarget.of (wording.padded padding address).text (wording.padded padding address).url =
        ImportTarget.of (wording.statement address).text (wording.statement address).url ↔
      wording.strayBefore padding = [] ∨ wording.bracketed = true ∧ NetworkAddress address ∨
        address.head? ≠ Option.some '~' := by
  rw [← wording.padded_least, wording.target_padded padding plain some,
    wording.target_padded .least plain some, strayBefore_least]
  by_cases network : wording.bracketed = true ∧ NetworkAddress address
  · simp [network]
  · by_cases tilde : address.head? = Option.some '~'
    · by_cases stray : wording.strayBefore padding = [] <;> simp [network, tilde, stray]
    · simp [tilde]

/-! ## The reader of comments -/

theorem liveFrom_opened (wording : Wording) (padding : Padding) (s : List Char) :
    liveFrom (.text none false) (wording.opened padding ++ s) =
      wording.opened padding ++ liveFrom (.text none false) s := by
  rw [opened]
  split
  · rw [List.append_assoc, List.append_assoc,
      ← (Css.idle_of_allBlank padding.behindOpening_blank).liveFrom]
    rfl
  · rfl

theorem liveFrom_closed (wording : Wording) (padding : Padding) (s : List Char) :
    liveFrom (.text none false) (wording.closed padding ++ s) =
      wording.closed padding ++ liveFrom (.text none false) s := by
  rw [closed]
  split
  · rw [List.append_assoc, (Css.idle_of_allBlank padding.beforeClosing_blank).liveFrom,
      List.append_assoc]
    rfl
  · rfl

theorem liveFrom_mark (wording : Wording) (s : List Char) :
    liveFrom (.text none false) (wording.mark ++ s) =
        wording.mark ++ liveFrom (.text wording.quote? false) s ∧
      liveFrom (.text wording.quote? false) (wording.mark ++ s) =
        wording.mark ++ liveFrom (.text none false) s := by
  rcases wording with ⟨_, rfl | rfl⟩ | _ | ⟨_, rfl | rfl⟩ <;> exact ⟨rfl, rfl⟩

/-- The reader of comments finds none in a statement with blanks. -/
theorem withoutComments_padded (wording : Wording) (padding : Padding)
    (plain : PlainAddress address) :
    withoutComments (wording.padded padding address).text =
      (wording.padded padding address).text := by
  have word : Css.Idle importWord := by
    have spelled : importWord = ['@', 'i', 'm', 'p', 'o', 'r', 't'] := rfl
    rw [spelled]
    simp [Css.Idle, Css.signs]
  have noStar : '*' ∉ wording.mark ++ (wording.closed padding ++ (padding.beforeEnd ++ [';'])) := by
    rw [← List.append_assoc (wording.closed padding), ← List.append_assoc, List.mem_append, not_or]
    exact ⟨wording.not_mem_behind padding rfl (by decide), by decide⟩
  simp only [padded, ending, List.append_assoc]
  rw [withoutComments, word.liveFrom, (Css.idle_of_allBlank padding.behindWord_blank).liveFrom,
    liveFrom_opened, (wording.liveFrom_mark _).1, plain.liveFrom _ (mt List.mem_of_mem_head? noStar),
    (wording.liveFrom_mark _).2, liveFrom_closed,
    (Css.idle_of_allBlank padding.beforeEnd_blank).liveFrom]
  rfl

/-! ## The reader of statements -/

/-- With a blank behind `@import` a statement is found, and nothing else. -/
theorem all_padded (wording : Wording) (padding : Padding) (plain : PlainAddress address)
    (apart : padding.behindWord ≠ []) :
    all (wording.padded padding address).text = [wording.padded padding address] := by
  obtain ⟨c, blanks, behind⟩ := List.exists_cons_of_ne_nil apart
  have blank : Text.isBlank c = true := by
    refine List.all_eq_true.1 padding.behindWord_blank c ?_
    rw [behind]
    exact List.mem_cons_self
  have lacks : ';' ∉ importWord ++ (padding.behindWord ++ (wording.opened padding ++
      wording.ending padding address)) := by
    have word : ';' ∉ importWord := by decide
    have front := Text.not_mem_of_allBlank (c := ';') padding.behindWord_blank rfl
    simp only [List.mem_append, not_or]
    exact ⟨word, front, wording.semicolon_not_mem_opened padding,
      wording.semicolon_not_mem_ending padding plain⟩
  have whole : (wording.padded padding address).text = importWord ++ (padding.behindWord ++
      (wording.opened padding ++ wording.ending padding address)) ++ ';' :: [] := by
    simp only [padded, List.append_assoc]
  have starts : startsAt (wording.padded padding address).text = true := by
    rw [padded, behind]
    exact blank
  obtain ⟨through, after⟩ := semicolon_cut lacks []
  rw [← whole] at through after
  cases split : (wording.padded padding address).text with
  | nil =>
    rw [split] at starts
    cases starts
  | cons d s =>
    rw [split] at starts through after
    rw [all, if_pos starts, through, after, all, ← split]

/-- Without a blank behind `@import` a statement is not found. -/
theorem padded_not_mem_all (wording : Wording) (padding : Padding) (plain : PlainAddress address)
    (some : address ≠ []) (joined : padding.behindWord = []) :
    wording.padded padding address ∉ all (wording.padded padding address).text := by
  obtain ⟨c, first, dark⟩ := wording.exists_head_opened padding plain some [';']
  obtain ⟨s, behind⟩ := List.head?_eq_some_iff.1 first
  have whole : (wording.padded padding address).text = '@' :: ("import".toList ++ c :: s) := by
    rw [padded, joined, List.nil_append, behind]
    rfl
  have starts : startsAt ('@' :: ("import".toList ++ c :: s)) = false := dark
  intro mem
  rw [whole, all, starts, if_neg Bool.false_ne_true] at mem
  have shorter := (infix_of_mem_all mem).length_le
  rw [whole, List.length_cons] at shorter
  omega

end Wording

end Statement

/-- What a scan tells of an import, but for how its statement is written. -/
def Import.bound (made : Import) : String × Path × String := (made.url, made.file, made.name)

namespace Importer

open Statement (NetworkAddress Padding PlainAddress Wording)

variable {importer : Importer}

/-- A scan looks at no more of statements than at what they lead to and at their addresses. -/
theorem bindAll_congr (importer : Importer) {statements statements' : List Statement}
    (same : List.Forall₂ (fun statement statement' =>
      (statement.IsLocal ↔ statement'.IsLocal) ∧ statement.url = statement'.url)
        statements statements') (names : NameSet) :
    (importer.bindAll statements names).1 = (importer.bindAll statements' names).1 ∧
      (importer.bindAll statements names).2.map (List.map Import.bound) =
        (importer.bindAll statements' names).2.map (List.map Import.bound) := by
  have prepend : ∀ (made : Import) (imports : Except Fault (List Import)),
      (imports.map (made :: ·)).map (List.map Import.bound) =
        (imports.map (List.map Import.bound)).map (made.bound :: ·) := by
    intro made imports
    cases imports <;> rfl
  induction same generalizing names with
  | nil => exact ⟨rfl, rfl⟩
  | @cons statement statement' statements statements' here _ ih =>
    obtain ⟨leads, url⟩ := here
    rw [bindAll, bindAll, url]
    by_cases file' : statement'.IsLocal
    · rw [if_pos file', if_pos (leads.2 file')]
      cases importer.find (String.ofList statement'.url) with
      | error => exact ⟨rfl, rfl⟩
      | ok found =>
        obtain ⟨after, made⟩ := ih (names.insert (names.fresh found.2))
        refine ⟨after, ?_⟩
        dsimp only
        rw [prepend, prepend, made]
        rfl
    · rw [if_neg file', if_neg (mt leads.1 file')]
      exact ih names

/-- Two scans that hand out the same names, and that make the same imports or fail alike. -/
def SameImports (outcome outcome' : NameSet × Except Fault Scan) : Prop :=
  outcome.1 = outcome'.1 ∧
    outcome.2.map (fun scan => scan.imports.map Import.bound) =
      outcome'.2.map (fun scan => scan.imports.map Import.bound)

theorem sameImports_scan {css css' : String}
    (same : List.Forall₂ (fun statement statement' =>
      (statement.IsLocal ↔ statement'.IsLocal) ∧ statement.url = statement'.url)
        (statements css.toList) (statements css'.toList)) (names : NameSet) :
    SameImports (importer.scan css names) (importer.scan css' names) := by
  have parts : ∀ css : String, (importer.scan css names).1 =
      (importer.bindAll (statements css.toList) names).1 ∧
        (importer.scan css names).2.map (fun scan => scan.imports.map Import.bound) =
          (importer.bindAll (statements css.toList) names).2.map (List.map Import.bound) := by
    intro css
    rw [scan]
    rcases importer.bindAll (statements css.toList) names with ⟨after, _ | imports⟩ <;>
      exact ⟨rfl, rfl⟩
  obtain ⟨after, imports⟩ := bindAll_congr importer same names
  rw [SameImports, (parts css).1, (parts css').1, (parts css).2, (parts css').2]
  exact ⟨after, imports⟩

/-- The statements that a scan looks at in a text that is one statement with blanks. -/
theorem statements_padded (wording : Wording) (padding : Padding) {address : List Char}
    (plain : PlainAddress address) : statements (wording.padded padding address).text =
      Statement.all (wording.padded padding address).text := by
  have marked : Text.contains importWord (wording.padded padding address).text = true :=
    Text.contains_iff_infix.2 (List.prefix_append importWord _).isInfix
  rw [statements, if_pos marked, wording.withoutComments_padded padding plain]

/-- A stylesheet that is one statement, with blanks around its parts. The statement is found where a
blank stands behind `@import`. It leads to what it leads to without the blanks, but where blanks that
count hide a tilde; its address is the same just where none counts, and then so is the import. -/
theorem scan_padded (importer : Importer) (names : NameSet) {wording : Wording} {padding : Padding}
    {address : List Char} {css cssLeast : String} (plain : PlainAddress address) (some : address ≠ [])
    (whole : css.toList = (wording.padded padding address).text)
    (wholeLeast : cssLeast.toList = (wording.statement address).text) :
    (wording.padded padding address ∈ statements css.toList ↔ padding.behindWord ≠ []) ∧
    (ImportTarget.of (wording.padded padding address).text (wording.padded padding address).url =
        ImportTarget.of (wording.statement address).text (wording.statement address).url ↔
      wording.strayBefore padding = [] ∨ wording.bracketed = true ∧ NetworkAddress address ∨
        address.head? ≠ Option.some '~') ∧
    ((wording.padded padding address).url = address ↔ wording.Vanishes padding) ∧
    (padding.behindWord ≠ [] → ∀ after scan, importer.scan css names = (after, .ok scan) →
      ∀ made ∈ scan.imports, made.url.toList =
        wording.strayBefore padding ++ (address ++ wording.strayBehind padding)) ∧
    (padding.behindWord ≠ [] → wording.Vanishes padding →
      SameImports (importer.scan css names) (importer.scan cssLeast names)) := by
  have found : padding.behindWord ≠ [] →
      statements css.toList = [wording.padded padding address] := by
    intro apart
    rw [whole, statements_padded wording padding plain, wording.all_padded padding plain apart]
  have target := wording.target_padded_eq_iff padding plain some
  have url := wording.url_padded_eq_iff padding plain some
  refine ⟨⟨?_, ?_⟩, target, url, ?_, ?_⟩
  · rintro mem joined
    rw [whole, statements_padded wording padding plain] at mem
    exact wording.padded_not_mem_all padding plain some joined mem
  · intro apart
    rw [found apart]
    exact List.mem_singleton_self _
  · rintro apart after ⟨imports, text⟩ scanned made mem
    have binds : Binds importer (statements css.toList) names after imports :=
      (scan_eq_ok_iff.1 scanned).1
    rw [found apart] at binds
    cases binds with
    | pass _ rest =>
      cases rest
      cases mem
    | bind _ _ rest =>
      cases rest
      rw [List.mem_singleton.1 mem, importOf, String.toList_ofList]
      exact wording.url_padded padding plain some
  · intro apart vanishes
    have foundLeast : statements cssLeast.toList = [wording.statement address] := by
      rw [wholeLeast, ← wording.padded_least, statements_padded wording .least plain,
        wording.all_padded .least plain (List.cons_ne_nil _ _)]
    have leads : (wording.padded padding address).IsLocal ↔ (wording.statement address).IsLocal := by
      have stray := (wording.vanishes_iff padding).1 vanishes
      rw [Statement.IsLocal, Statement.IsLocal, target.2 (.inl stray.1)]
    have names : (wording.padded padding address).url = (wording.statement address).url := by
      rw [url.2 vanishes, wording.url_statement plain some]
    refine sameImports_scan ?_ _
    rw [found apart, foundLeast]
    exact .cons ⟨leads, names⟩ .nil

/-- A blank before the semicolon counts as part of the address. -/
theorem scan_padded_end :
    let importer : Importer := ⟨⟨"/d/main.css"⟩, none, .ok ⟨"/"⟩, Name.toIdentifier⟩
    let css := "@import './a.css' ;"
    let scan : Scan := ⟨[⟨"@import './a.css' ;", "./a.css ", ⟨"/d/a.css "⟩, "aCss"⟩], ""⟩
    (importer.scan css (NameSet.singleton "mainCss")).2 = .ok scan ∧
      ∃ padding : Padding, ∃ quote : Statement.Quote,
        css.toList = ((Wording.string quote).padded padding "./a.css".toList).text ∧
        ¬ (Wording.string quote).Vanishes padding ∧
        ∀ made ∈ scan.imports, made.url.toList = "./a.css".toList ++ padding.beforeEnd := by
  intro importer css scan
  have scanned : (importer.scan css (NameSet.singleton "mainCss")).2 = .ok scan := by
    decide +kernel
  have outcome : importer.scan css (NameSet.singleton "mainCss") =
    ((importer.scan css (NameSet.singleton "mainCss")).1, .ok scan) := by rw [← scanned]
  have plain : PlainAddress "./a.css".toList := by decide +kernel
  let padding : Padding := ⟨[' '], [], [], [' '], rfl, rfl, rfl, rfl⟩
  let quote : Statement.Quote := ⟨'\'', .inr rfl⟩
  have whole : css.toList = ((Wording.string quote).padded padding "./a.css".toList).text := by
    decide +kernel
  obtain ⟨_, _, _, made, _⟩ := scan_padded importer (NameSet.singleton "mainCss") plain (by simp)
    whole String.toList_ofList
  refine ⟨scanned, padding, quote, whole, by simp [Wording.Vanishes, padding], ?_⟩
  exact made (List.cons_ne_nil _ _) _ scan outcome

end Importer

end StyleModule
