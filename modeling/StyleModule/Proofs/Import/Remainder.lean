import StyleModule.Proofs.Import.Binds
import StyleModule.Proofs.Import.Turns

/-!
# What is left of a scanned stylesheet

The text that ought to remain of a stylesheet is, comments set aside, its text without the
statements that became imports. `live_text_iff` says when it does: no statement may be missed,
whatever goes astray must be neutral, and where nothing disturbs the reader, nothing else is asked.
A stray that is not neutral can be made up for by a later one, so the equivalence asks for neutral
ones before the last.
-/

namespace StyleModule.Importer

open Statement (Part parts textOf withoutLocal textOf_parts)

/-! ## The turns of a stylesheet -/

section Stylesheet

variable {css : List Char}

theorem turn_mem_turnsOf {r : Removal}
    (mem : r ∈ removals [] (parts (Css.withoutComments css)) css) : r.turn ∈ turnsOf css := by
  rw [turnsOf, turns_eq_map]
  exact List.mem_map_of_mem mem

/-- Where nothing disturbs the reader and the right text is left, no statement is missed. -/
theorem missed_not_mem_turnsOf (calm : .disturbing ∉ turnsOf css)
    (same : Css.withoutComments (removeLocal (parts (Css.withoutComments css)) css) =
      withoutLocal (Css.withoutComments css)) : .missed ∉ turnsOf css := by
  intro missed
  have less := (length_of_turns calm fun _ => Statement.text_ne_nil_of_mem_parts).2 missed
  have split := length_textOf (parts (Css.withoutComments css))
  rw [textOf_parts] at split
  rw [same, withoutLocal] at less
  omega

/-- Where nothing disturbs the reader, and the strays before the last are neutral, the right text is
left just where no statement is missed and every stray is neutral. -/
theorem live_removeLocal_iff (calm : .disturbing ∉ turnsOf css)
    (early : ∀ r ∈ (straysOf css).dropLast, r.Neutral) :
    Css.withoutComments (removeLocal (parts (Css.withoutComments css)) css) =
        withoutLocal (Css.withoutComments css) ↔
      .missed ∉ turnsOf css ∧ ∀ r ∈ straysOf css, r.Neutral := by
  by_cases missed : .missed ∈ turnsOf css
  · exact iff_of_false (fun same => missed_not_mem_turnsOf calm same missed)
      fun right => right.1 missed
  have whole : Css.withoutComments css = [] ++ textOf (parts (Css.withoutComments css)) :=
    (textOf_parts _).symm
  rw [and_iff_right missed]
  refine live_of_strays ?_ early whole
  intro r mem
  have turned : r.turn ∈ turnsOf css := turn_mem_turnsOf mem
  cases outcome : r.turn with
  | taken => exact .inl rfl
  | astray => exact .inr rfl
  | missed => rw [outcome] at turned; exact absurd turned missed
  | disturbing => rw [outcome] at turned; exact absurd turned calm

theorem straysOf_eq_nil (settled : ∀ turn ∈ turnsOf css, turn = .taken ∨ turn = .missed) :
    straysOf css = [] := by
  refine List.filter_eq_nil_iff.2 fun r mem astray => ?_
  have turned : r.turn ∈ turnsOf css := turn_mem_turnsOf mem
  rw [of_decide_eq_true astray] at turned
  rcases settled _ turned with h | h <;> cases h

end Stylesheet

/-! ## Scans -/

theorem removeLocal_eq (parts : List Part) (css : List Char) :
    removeLocal parts css = ((parts.filterMap Part.statement?).filter (·.IsLocal)).foldl
      (fun css statement => Text.removeFirst statement.text css) css := by
  induction parts generalizing css with
  | nil => rfl
  | cons part parts ih =>
    rw [removeLocal, List.foldl_cons, ← removeLocal, ih]
    cases part with
    | outside c => rfl
    | statement s =>
      have shown : (Part.statement s).statement? = some s := rfl
      rw [List.filterMap_cons_some shown]
      by_cases here : s.IsLocal
      · rw [List.filter_cons_of_pos (by simpa using here),
          if_pos (by simpa [Part.isLocal] using here)]
        rfl
      · rw [List.filter_cons_of_neg (by simpa using here),
          if_neg (by simpa [Part.isLocal] using here)]

variable {importer : Importer} {css : String} {names after : NameSet} {scan : Scan}

/-- The imports of a scan are the local statements of the text without comments, in order. -/
theorem statements_of_scan (scanned : importer.scan css names = (after, .ok scan))
    (marked : Text.contains importWord css.toList = true) :
    scan.imports.map Import.statement = ((Statement.all (Css.withoutComments
      css.toList)).filter (·.IsLocal)).map fun statement => String.ofList statement.text := by
  obtain ⟨binds, _⟩ := scan_eq_ok_iff.1 scanned
  rw [binds.statements_eq, statements, if_pos marked]

/-- A scan takes the local statements out of the text, one after the other. -/
theorem text_of_scan (scanned : importer.scan css names = (after, .ok scan))
    (marked : Text.contains importWord css.toList = true) :
    scan.text.toList = removeLocal (parts (Css.withoutComments css.toList)) css.toList := by
  obtain ⟨binds, text⟩ := scan_eq_ok_iff.1 scanned
  rw [text, String.toList_ofList, binds.removeAll_eq, statements, if_pos marked, removeLocal_eq,
    Statement.filterMap_statement?_parts]

/-- The imports of a scan are the local statements, and this is when the text that remains, comments
set aside, is the text without them. None of them may be missed, unless one disturbs the reader of
comments; and where each of them is taken or missed, it is enough that none is missed. Where one
goes astray, a copy of it is taken out at another place, and that may make no difference: if those
that go astray before the last are neutral, the last one must be as well, and then nothing else is
asked. -/
theorem live_text_iff (scanned : importer.scan css names = (after, .ok scan))
    (marked : Text.contains importWord css.toList = true) :
    scan.imports.map Import.statement = ((Statement.all (Css.withoutComments
      css.toList)).filter (·.IsLocal)).map (fun statement => String.ofList statement.text) ∧
    ((∀ turn ∈ turnsOf css.toList, turn = .taken ∨ turn = .missed) →
      (Css.withoutComments scan.text.toList = withoutLocal (Css.withoutComments css.toList) ↔
        .missed ∉ turnsOf css.toList)) ∧
    (.disturbing ∉ turnsOf css.toList →
      Css.withoutComments scan.text.toList = withoutLocal (Css.withoutComments css.toList) →
        .missed ∉ turnsOf css.toList) ∧
    (.disturbing ∉ turnsOf css.toList → (∀ r ∈ (straysOf css.toList).dropLast, r.Neutral) →
      (Css.withoutComments scan.text.toList = withoutLocal (Css.withoutComments css.toList) ↔
        .missed ∉ turnsOf css.toList ∧ ∀ r ∈ straysOf css.toList, r.Neutral)) ∧
    ∀ r ∈ straysOf css.toList, r.before ≠ r.kept ∧ ∃ behind,
      Css.withoutComments r.css = r.before ++ (r.statement ++ behind) ∧
        Css.withoutComments r.left = r.before ++ behind := by
  rw [text_of_scan scanned marked]
  refine ⟨statements_of_scan scanned marked, ?_, missed_not_mem_turnsOf, live_removeLocal_iff, ?_⟩
  · intro settled
    have calm : .disturbing ∉ turnsOf css.toList := by
      intro disturbing
      rcases settled _ disturbing with h | h <;> cases h
    have strays := straysOf_eq_nil settled
    have right := live_removeLocal_iff calm (by rw [strays]; exact List.forall_mem_nil _)
    rwa [strays, and_iff_left (List.forall_mem_nil _)] at right
  · intro r mem
    exact Removal.live_of_astray (of_decide_eq_true (List.mem_filter.1 mem).2)

/-- Two imports that stay: one has a copy of it in a comment before, the other one inside a
statement that leads elsewhere and goes on to the next semicolon, and each time the copy is taken
out. -/
theorem live_text_commented :
    let importer : Importer := ⟨⟨"/d/main.css"⟩, none, .ok ⟨"/"⟩, Name.toIdentifier⟩
    let css := "/* @import './a.css'; */@import './a.css';"
    let scan : Scan :=
      ⟨[⟨"@import './a.css';", "./a.css", ⟨"/d/a.css"⟩, "aCss"⟩], "/*  */@import './a.css';"⟩
    let css' := "@import url(http://x) @import 'a';.b\x7b\x7d@import 'a';"
    let scan' : Scan :=
      ⟨[⟨"@import 'a';", "a", ⟨"/d/a"⟩, "a"⟩], "@import url(http://x) .b\x7b\x7d@import 'a';"⟩
    ((importer.scan css (.singleton "mainCss")).2 = .ok scan ∧ turnsOf css.toList = [.missed] ∧
      Css.withoutComments scan.text.toList ≠ withoutLocal (Css.withoutComments css.toList)) ∧
    (importer.scan css' (.singleton "mainCss")).2 = .ok scan' ∧ turnsOf css'.toList = [.astray] ∧
      Css.withoutComments scan'.text.toList ≠ withoutLocal (Css.withoutComments css'.toList) := by
  intro importer css scan css' scan'
  have found : (importer.scan css (.singleton "mainCss")).2 = .ok scan := by decide +kernel
  have outcome : turnsOf css.toList = [.missed] := by decide +kernel
  have found' : (importer.scan css' (.singleton "mainCss")).2 = .ok scan' := by decide +kernel
  have outcome' : turnsOf css'.toList = [.astray] := by decide +kernel
  refine ⟨⟨found, outcome, ?_⟩, found', outcome', ?_⟩
  · intro same
    have condition := (live_text_iff (Prod.ext rfl found) (by decide +kernel)).2.1
      (by rw [outcome]; decide)
    rw [outcome] at condition
    exact condition.1 same List.mem_cons_self
  · intro same
    have condition := (live_text_iff (Prod.ext rfl found') (by decide +kernel)).2.2.2.1
      (by rw [outcome']; decide) (by decide +kernel)
    have neutral := (condition.1 same).2
    exact absurd neutral (by decide +kernel)

/-- A statement right behind one that leads elsewhere and ends with a copy of it goes astray, and
still the right text is left. -/
example :
    let css := "@import url(http://x) @import 'a';@import 'a';".toList
    turnsOf css = [.astray] ∧ ∀ r ∈ straysOf css, r.Neutral := by
  decide +kernel

end StyleModule.Importer
