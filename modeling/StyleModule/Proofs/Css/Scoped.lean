import StyleModule.Css.Scope
import StyleModule.Proofs.Css.Idle
import StyleModule.Proofs.Text.Margins

/-!
# Scoping as a relation between texts

`Reads` tells the items that are read of a stylesheet from its text, so a later proof goes over the
items of a text without opening the reader (`reads_of_parse`).

`Scoped` relates a stylesheet to the same kept to a scope, item by item, without reading or writing
a tree: both are the same items in the same order, and only the preludes of style rules differ, at
every depth of grouping. `scopeText_eq_ok_iff` says that this is what scoping a text computes, so
the reader loses no character of it and the writer adds none.
-/

namespace StyleModule.Css

/-! ## Reading item by item -/

theorem IsComment.ne_nil {c : List Char} (closed : IsComment c) : c ≠ [] := by
  obtain ⟨_⟩ := closed
  exact List.cons_ne_nil _ _

/-- A stylesheet and the items that are read of it, told from the text. -/
inductive Reads : List Char → Sheet → Prop
  | tail {text : List Char} (tail : Tail 0 text) : Reads text (.tail text)
  | comment {before c css : List Char} {n : Nat} {sheet : Sheet} (quiet : Quiet 0 before n)
      (closed : IsComment c) (rest : Reads css sheet) :
      Reads (before ++ (c ++ css)) (.comment (before ++ c) sheet)
  | openComment {before c : List Char} {n : Nat} (quiet : Quiet 0 before n)
      (cut : IsOpenComment c) : Reads (before ++ c) (.comment (before ++ c) (.tail []))
  | statement {before css : List Char} {sheet : Sheet} (quiet : Quiet 0 before 0)
      (rest : Reads css sheet) : Reads (before ++ ';' :: css) (.statement (before ++ [';']) sheet)
  | stray {before css : List Char} {sheet : Sheet} (quiet : Quiet 0 before 0)
      (rest : Reads css sheet) : Reads (before ++ '}' :: css) (.stray (before ++ ['}']) sheet)
  | block {prelude body css : List Char} {sheet : Sheet} (quiet : Quiet 0 prelude 0)
      (kind : BlockKind.of (Text.trim prelude) = .other) (inside : Inside 0 body)
      (rest : Reads css sheet) :
      Reads (prelude ++ '{' :: (body ++ '}' :: css)) (.block prelude body sheet)
  | group {prelude body css : List Char} {inner sheet : Sheet} (quiet : Quiet 0 prelude 0)
      (kind : BlockKind.of (Text.trim prelude) = .group) (inside : Inside 0 body)
      (within : Reads body inner) (rest : Reads css sheet) :
      Reads (prelude ++ '{' :: (body ++ '}' :: css)) (.group prelude inner sheet)
  | rule {leading selectors trailing body css : List Char} {sheet : Sheet}
      (quiet : Quiet 0 (leading ++ (selectors ++ trailing)) 0)
      (margins : Text.Margins leading selectors trailing) (kind : BlockKind.of selectors = .rule)
      (inside : Inside 0 body) (rest : Reads css sheet) :
      Reads (leading ++ (selectors ++ trailing) ++ '{' :: (body ++ '}' :: css))
        (.rule (leading ++ (selectors ++ trailing)) body sheet)

/-- What is read is told from the text. The induction is on the length of the text: what is behind
an item, and what is inside its block, is shorter. -/
theorem reads_of_parse {css : List Char} {sheet : Sheet} (h : Sheet.parse css = .ok sheet) :
    Reads css sheet := by
  induction length : css.length using Nat.strongRecOn generalizing css sheet with
  | _ n ih =>
    subst length
    have shorter : ∀ {part : List Char} {tree : Sheet}, part.length < css.length →
        Sheet.parse part = .ok tree → Reads part tree := fun lt read => ih _ lt read rfl
    clear ih
    cases itemView css with
    | tail ends =>
      rw [Sheet.parse_tail ends] at h
      cases h
      exact .tail ends
    | comment rest quiet closed =>
      rw [Sheet.parse_comment quiet closed] at h
      obtain ⟨tree, read, rfl⟩ := of_map_eq_ok h
      have some := List.length_pos_iff.2 closed.ne_nil
      exact .comment quiet closed (shorter (by simp only [List.length_append]; omega) read)
    | openComment quiet cut =>
      rw [Sheet.parse_openComment quiet cut] at h
      cases h
      exact .openComment quiet cut
    | statement rest quiet =>
      rw [Sheet.parse_statement quiet] at h
      obtain ⟨tree, read, rfl⟩ := of_map_eq_ok h
      exact .statement quiet (shorter (by simp; omega) read)
    | stray rest quiet =>
      rw [Sheet.parse_stray quiet] at h
      obtain ⟨tree, read, rfl⟩ := of_map_eq_ok h
      exact .stray quiet (shorter (by simp; omega) read)
    | @block prelude body rest quiet inside =>
      rw [Sheet.parse_block quiet inside] at h
      cases kind : BlockKind.of (Text.trim prelude) with
      | other =>
        rw [kind] at h
        obtain ⟨tree, read, rfl⟩ := of_map_eq_ok h
        exact .block quiet kind inside (shorter (by simp; omega) read)
      | group =>
        rw [kind] at h
        cases readBody : Sheet.parse body with
        | error => rw [readBody] at h; cases h
        | ok inner =>
          rw [readBody] at h
          obtain ⟨tree, read, rfl⟩ := of_map_eq_ok h
          exact .group quiet kind inside (shorter (by simp; omega) readBody)
            (shorter (by simp; omega) read)
      | rule =>
        rw [kind] at h
        obtain ⟨tree, read, rfl⟩ := of_map_eq_ok h
        have behind := shorter (by simp; omega) read
        obtain ⟨leading, selectors, trailing, margins, rfl⟩ := Text.exists_margins prelude
        rw [margins.trim] at kind
        exact .rule quiet margins kind inside behind
    | unclosed quiet unclosed =>
      rw [Sheet.parse_unclosed quiet unclosed] at h
      cases h

/-! ## The relation -/

/-- A stylesheet, and the same kept to a scope. -/
inductive Scoped (scope : List Char) (keep : Bool) : List Char → List Char → Prop
  | tail {text : List Char} (tail : Tail 0 text) : Scoped scope keep text text
  | comment {before c css out : List Char} {n : Nat} (quiet : Quiet 0 before n)
      (closed : IsComment c) (rest : Scoped scope keep css out) :
      Scoped scope keep (before ++ (c ++ css)) (before ++ (c ++ out))
  | openComment {before c : List Char} {n : Nat} (quiet : Quiet 0 before n)
      (cut : IsOpenComment c) : Scoped scope keep (before ++ c) (before ++ c)
  | statement {before css out : List Char} (quiet : Quiet 0 before 0)
      (rest : Scoped scope keep css out) :
      Scoped scope keep (before ++ ';' :: css) (before ++ ';' :: out)
  | stray {before css out : List Char} (quiet : Quiet 0 before 0)
      (rest : Scoped scope keep css out) :
      Scoped scope keep (before ++ '}' :: css) (before ++ '}' :: out)
  | block {prelude body css out : List Char} (quiet : Quiet 0 prelude 0)
      (kind : BlockKind.of (Text.trim prelude) = .other) (inside : Inside 0 body)
      (rest : Scoped scope keep css out) :
      Scoped scope keep (prelude ++ '{' :: (body ++ '}' :: css))
        (prelude ++ '{' :: (body ++ '}' :: out))
  | group {prelude body inner css out : List Char} (quiet : Quiet 0 prelude 0)
      (kind : BlockKind.of (Text.trim prelude) = .group) (inside : Inside 0 body)
      (within : Scoped scope keep body inner) (rest : Scoped scope keep css out) :
      Scoped scope keep (prelude ++ '{' :: (body ++ '}' :: css))
        (prelude ++ '{' :: (inner ++ '}' :: out))
  | rule {leading selectors trailing body css out : List Char}
      (quiet : Quiet 0 (leading ++ (selectors ++ trailing)) 0)
      (margins : Text.Margins leading selectors trailing) (kind : BlockKind.of selectors = .rule)
      (inside : Inside 0 body) (rest : Scoped scope keep css out) :
      Scoped scope keep (leading ++ (selectors ++ trailing) ++ '{' :: (body ++ '}' :: css))
        (leading ++ ((if keep then "/*!@".toList ++ selectors ++ "*/".toList else []) ++
          (scopeList scope selectors ++ trailing)) ++ '{' :: (body ++ '}' :: out))

variable {scope : List Char} {keep : Bool}

/-- What becomes of a prelude, told from its parts. -/
theorem scopePrelude_eq {leading selectors trailing : List Char}
    (margins : Text.Margins leading selectors trailing) :
    scopePrelude scope keep (leading ++ (selectors ++ trailing)) =
      leading ++ ((if keep then "/*!@".toList ++ selectors ++ "*/".toList else []) ++
        (scopeList scope selectors ++ trailing)) := by
  have comment : keepComment selectors = "/*!@".toList ++ selectors ++ "*/".toList := rfl
  simp only [scopePrelude, margins.trim, margins.blankHead, margins.blankTail, comment,
    List.append_assoc]

/-- What is related to a stylesheet is what is read of it, with the preludes of its rules scoped. -/
theorem Scoped.exists_sheet {css out : List Char} (h : Scoped scope keep css out) :
    ∃ sheet, Sheet.parse css = .ok sheet ∧ (sheet.scope scope keep).text = out := by
  induction h with
  | tail tail => exact ⟨_, Sheet.parse_tail tail, rfl⟩
  | @comment before c css out n quiet closed _ ih =>
    obtain ⟨sheet, read, rfl⟩ := ih
    refine ⟨.comment (before ++ c) sheet, ?_, List.append_assoc ..⟩
    rw [Sheet.parse_comment quiet closed, read]
    rfl
  | @openComment before c n quiet cut =>
    exact ⟨_, Sheet.parse_openComment quiet cut, List.append_nil _⟩
  | @statement before css out quiet _ ih =>
    obtain ⟨sheet, read, rfl⟩ := ih
    refine ⟨.statement (before ++ [';']) sheet, ?_, List.append_assoc ..⟩
    rw [Sheet.parse_statement quiet, read]
    rfl
  | @stray before css out quiet _ ih =>
    obtain ⟨sheet, read, rfl⟩ := ih
    refine ⟨.stray (before ++ ['}']) sheet, ?_, List.append_assoc ..⟩
    rw [Sheet.parse_stray quiet, read]
    rfl
  | @block prelude body css out quiet kind inside _ ih =>
    obtain ⟨sheet, read, rfl⟩ := ih
    refine ⟨.block prelude body sheet, ?_, List.append_assoc ..⟩
    rw [Sheet.parse_block quiet inside, kind, read]
    rfl
  | @group prelude body inner css out quiet kind inside _ _ ihw ih =>
    obtain ⟨bodySheet, readBody, rfl⟩ := ihw
    obtain ⟨sheet, read, rfl⟩ := ih
    refine ⟨.group prelude bodySheet sheet, ?_, List.append_assoc ..⟩
    rw [Sheet.parse_block quiet inside, kind, readBody, read]
    rfl
  | @rule leading selectors trailing body css out quiet margins kind inside _ ih =>
    obtain ⟨sheet, read, rfl⟩ := ih
    refine ⟨.rule (leading ++ (selectors ++ trailing)) body sheet, ?_, ?_⟩
    · rw [Sheet.parse_block quiet inside, margins.trim, kind, read]
      rfl
    · rw [Sheet.scope, Sheet.text, scopePrelude_eq margins, List.append_assoc]
      rfl

/-- What is read is related to what is written of it. -/
theorem Reads.related {css : List Char} {sheet : Sheet} (reads : Reads css sheet) :
    Scoped scope keep css (sheet.scope scope keep).text := by
  induction reads with
  | tail ends => exact .tail ends
  | comment quiet closed _ rest =>
    rw [Sheet.scope, Sheet.text, List.append_assoc]
    exact .comment quiet closed rest
  | openComment quiet cut =>
    rw [Sheet.scope, Sheet.text, Sheet.scope, Sheet.text, List.append_nil]
    exact .openComment quiet cut
  | statement quiet _ rest =>
    rw [Sheet.scope, Sheet.text, List.append_assoc]
    exact .statement quiet rest
  | stray quiet _ rest =>
    rw [Sheet.scope, Sheet.text, List.append_assoc]
    exact .stray quiet rest
  | block quiet kind inside _ rest =>
    rw [Sheet.scope, Sheet.text, List.append_assoc]
    exact .block quiet kind inside rest
  | group quiet kind inside _ _ within rest =>
    rw [Sheet.scope, Sheet.text, List.append_assoc]
    exact .group quiet kind inside within rest
  | rule quiet margins kind inside _ rest =>
    rw [Sheet.scope, Sheet.text, scopePrelude_eq margins, List.append_assoc _ ('{' :: _)]
    exact .rule quiet margins kind inside rest

theorem scoped_of_parse {css : List Char} {sheet : Sheet} (h : Sheet.parse css = .ok sheet) :
    Scoped scope keep css (sheet.scope scope keep).text := (reads_of_parse h).related

/-! ## Scoping texts -/

theorem scoped_of_scopeText {css scope out : String}
    (h : scopeText css scope keep = .ok out) : Scoped scope.toList keep css.toList out.toList := by
  rw [scopeText] at h
  split at h
  next sheet read =>
    cases h
    rw [String.toList_ofList]
    exact scoped_of_parse read
  next => cases h

theorem Scoped.scopeText {css scope out : String}
    (h : Scoped scope.toList keep css.toList out.toList) :
    Css.scopeText css scope keep = .ok out := by
  obtain ⟨sheet, read, written⟩ := h.exists_sheet
  simp only [Css.scopeText, read, written, String.ofList_toList]

/-- Scoping a text succeeds just with what is related to it. -/
theorem scopeText_eq_ok_iff (css scope : String) (keep : Bool) (out : String) :
    scopeText css scope keep = .ok out ↔ Scoped scope.toList keep css.toList out.toList :=
  ⟨scoped_of_scopeText, Scoped.scopeText⟩

/-- Blanks in front of a stylesheet stay in front of it. -/
theorem Scoped.blanks {blanks css out : List Char} (blank : Text.allBlank blanks = true)
    (h : Scoped scope keep css out) : Scoped scope keep (blanks ++ css) (blanks ++ out) := by
  have idle := idle_of_allBlank blank
  cases h with
  | tail tail =>
    obtain ⟨quiet, last⟩ := tail
    rw [← List.append_assoc]
    exact .tail (.cut (idle.quiet quiet) last)
  | comment quiet closed rest =>
    rw [← List.append_assoc blanks, ← List.append_assoc blanks]
    exact .comment (idle.quiet quiet) closed rest
  | openComment quiet cut =>
    rw [← List.append_assoc]
    exact .openComment (idle.quiet quiet) cut
  | statement quiet rest =>
    rw [← List.append_assoc, ← List.append_assoc]
    exact .statement (idle.quiet quiet) rest
  | stray quiet rest =>
    rw [← List.append_assoc, ← List.append_assoc]
    exact .stray (idle.quiet quiet) rest
  | block quiet kind inside rest =>
    rw [← List.append_assoc, ← List.append_assoc]
    rw [← Text.trim_append blank] at kind
    exact .block (idle.quiet quiet) kind inside rest
  | group quiet kind inside within rest =>
    rw [← List.append_assoc, ← List.append_assoc]
    rw [← Text.trim_append blank] at kind
    exact .group (idle.quiet quiet) kind inside within rest
  | rule quiet margins kind inside rest =>
    have quiet := idle.quiet quiet
    rw [← List.append_assoc] at quiet
    have whole : Scoped scope keep _ _ :=
      .rule quiet (margins.prepend blank) kind inside rest
    simpa only [List.append_assoc] using whole

end StyleModule.Css
