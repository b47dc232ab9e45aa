import StyleModule.Css.Scope
import StyleModule.Proofs.Css.Ends
import StyleModule.Proofs.Text.Margins

/-!
# Comments in preludes

A stylesheet with comments in the preludes of its style rules and groups (`Noted`), the stylesheet
that is left when all comments are taken out (`Noted.sheet`), and what scoping makes of the one with
the comments (`Noted.kept`).

A comment is an item of its own wherever it stands, so one that stands in a prelude cuts it. What is
in front of the last comment is copied, and what is behind it is read as a prelude by itself: it
belongs to a style rule, whatever it was the end of, unless nothing stands in front of the comment.

`Noted.scopeText_eq` says that this is what scoping does. Everything is told of lexemes, so that the
comments are there to be counted; `Noted.Fits` says that the parts are where a reader finds them.
Every stylesheet without comments that can be read can be told so (`Noted.told_of_read`).
-/

namespace StyleModule.Css

/-! ## Preludes with comments -/

/-- A prelude with comments in it: what stands in front of each comment, with the comment, and what
stands behind the last one. -/
structure Heading where
  parts : List (List Lexeme × List Char)
  last : List Lexeme

namespace Heading

/-- What stands up to the last comment. -/
def front (h : Heading) : List Lexeme :=
  h.parts.flatMap fun (text, note) => text ++ [.comment note]

def lexemes (h : Heading) : List Lexeme := h.front ++ h.last

/-- The text in front of the last comment, without comments. -/
def before (h : Heading) : List Char := textOf (bareOf h.front)

/-- The text without comments. -/
def text (h : Heading) : List Char := textOf (bareOf h.lexemes)

/-- Does nothing but blanks stand in front of the comments? -/
def Leading (h : Heading) : Prop := Text.allBlank h.before = true

instance (h : Heading) : Decidable h.Leading := inferInstanceAs (Decidable (_ = _))

/-- What a reader needs to find a prelude of the given kind where it is: no item ends in it, neither
with nor without the comments, and an at sign stands at its beginning only. -/
structure Fits (h : Heading) (kind : BlockKind) : Prop where
  quiet : parensThrough 0 (bareOf h.lexemes) = some 0
  quiet_parts : ∀ part ∈ h.parts, ∃ parens, parensThrough 0 part.1 = some parens
  quiet_last : parensThrough 0 h.last = some 0
  kind_text : BlockKind.of (Text.trim h.text) = kind
  kind_last : h.Leading ∨ BlockKind.of (Text.trim (textOf h.last)) = .rule

theorem text_eq {h : Heading} {kind : BlockKind} (fits : h.Fits kind) :
    h.text = h.before ++ textOf h.last := by
  rw [text, lexemes, bareOf_append, textOf_append, bareOf_eq_self fits.quiet_last, before]

/-- A prelude behind leading comments is of the same kind. -/
theorem kind_of_leading {h : Heading} {kind : BlockKind} (fits : h.Fits kind)
    (leading : h.Leading) : BlockKind.of (Text.trim (textOf h.last)) = kind := by
  rw [← fits.kind_text, text_eq fits, Text.trim_append leading]

/-- Without an at sign, what is behind the last comment belongs to a style rule. -/
theorem kind_of_rule {h : Heading} (fits : h.Fits .rule) :
    BlockKind.of (Text.trim (textOf h.last)) = .rule :=
  fits.kind_last.elim (kind_of_leading fits) id

/-- A prelude without comments is where a reader finds it. -/
theorem fits_bare {prelude : List Lexeme} {kind : BlockKind}
    (quiet : parensThrough 0 prelude = some 0)
    (of : BlockKind.of (Text.trim (textOf prelude)) = kind) : Fits ⟨[], prelude⟩ kind where
  quiet := by
    show parensThrough 0 (bareOf prelude) = some 0
    rwa [bareOf_eq_self quiet]
  quiet_parts := nofun
  quiet_last := quiet
  kind_text := by
    show BlockKind.of (Text.trim (textOf (bareOf prelude))) = kind
    rwa [bareOf_eq_self quiet]
  kind_last := .inl rfl

/-- The comments are items of their own, with what stands in front of each. -/
theorem exists_ofLexemes {parts : List (List Lexeme × List Char)}
    (quiet : ∀ part ∈ parts, ∃ parens, parensThrough 0 part.1 = some parens) (scope : List Char)
    (keep : Bool) {rest : List Lexeme} {sheet : Sheet} (read : Sheet.ofLexemes rest = .ok sheet) :
    ∃ whole, Sheet.ofLexemes
        ((parts.flatMap fun (text, note) => text ++ [.comment note]) ++ rest) = .ok whole ∧
      (whole.scope scope keep).text =
        textOf (parts.flatMap fun (text, note) => text ++ [.comment note]) ++
          (sheet.scope scope keep).text := by
  induction parts with
  | nil => exact ⟨sheet, read, rfl⟩
  | cons part parts ih =>
    obtain ⟨text, note⟩ := part
    obtain ⟨parens, here⟩ := quiet _ List.mem_cons_self
    obtain ⟨whole, found, written⟩ := ih fun other mem => quiet other (List.mem_cons_of_mem _ mem)
    refine ⟨.comment (textOf text ++ note) whole, ?_, ?_⟩
    · rw [List.flatMap_cons, List.append_assoc, List.append_assoc, List.singleton_append,
        Sheet.ofLexemes_comment here, found]
      rfl
    · rw [Sheet.scope, Sheet.text, written, List.flatMap_cons, textOf_append, textOf_append]
      simp only [textOf, List.flatMap_cons, List.flatMap_nil, Lexeme.text, List.append_assoc,
        List.append_nil]

/-- A block whose prelude's end is taken for selectors is read as a rule behind the comments. -/
theorem exists_ofLexemes_rule {h : Heading} {kind : BlockKind} (fits : h.Fits kind)
    (rule : BlockKind.of (Text.trim (textOf h.last)) = .rule) {body rest : List Lexeme}
    (closed : depthThrough 0 body = some 0) (scope : List Char) (keep : Bool) {sheet : Sheet}
    (read : Sheet.ofLexemes rest = .ok sheet) :
    ∃ whole, Sheet.ofLexemes (h.lexemes ++ .char '{' :: (body ++ .char '}' :: rest)) = .ok whole ∧
      (whole.scope scope keep).text =
        textOf h.front ++ (scopePrelude scope keep (textOf h.last) ++
          '{' :: (textOf body ++ '}' :: (sheet.scope scope keep).text)) := by
  have block := Sheet.ofLexemes_block fits.quiet_last closed rest
  rw [rule, read] at block
  obtain ⟨whole, found, written⟩ := exists_ofLexemes fits.quiet_parts scope keep block
  rw [← List.append_assoc] at found
  refine ⟨whole, found, ?_⟩
  rw [written, Sheet.scope, Sheet.text, List.append_assoc, List.cons_append]
  rfl

end Heading

/-! ## Stylesheets with comments -/

/-- A stylesheet with comments in the preludes of its style rules and groups, as lexemes. The lexeme
that ends an item is not told again. -/
inductive Noted where
  | tail (text : List Lexeme)
  | statement (text : List Lexeme) (rest : Noted)
  | stray (text : List Lexeme) (rest : Noted)
  | block (prelude body : List Lexeme) (rest : Noted)
  | group (heading : Heading) (body rest : Noted)
  | rule (heading : Heading) (body : List Lexeme) (rest : Noted)

namespace Noted

def lexemes : Noted → List Lexeme
  | .tail text => text
  | .statement text rest => text ++ .char ';' :: rest.lexemes
  | .stray text rest => text ++ .char '}' :: rest.lexemes
  | .block prelude body rest => prelude ++ .char '{' :: (body ++ .char '}' :: rest.lexemes)
  | .group heading body rest =>
    heading.lexemes ++ .char '{' :: (body.lexemes ++ .char '}' :: rest.lexemes)
  | .rule heading body rest => heading.lexemes ++ .char '{' :: (body ++ .char '}' :: rest.lexemes)

/-- The items of the stylesheet without its comments. -/
def sheet : Noted → Sheet
  | .tail text => .tail (textOf text)
  | .statement text rest => .statement (textOf text ++ [';']) rest.sheet
  | .stray text rest => .stray (textOf text ++ ['}']) rest.sheet
  | .block prelude body rest => .block (textOf prelude) (textOf (bareOf body)) rest.sheet
  | .group heading body rest => .group heading.text body.sheet rest.sheet
  | .rule heading body rest => .rule heading.text (textOf (bareOf body)) rest.sheet

/-- What a reader needs to find the items where they are. -/
def Fits : Noted → Prop
  | .tail text => ∃ parens, parensThrough 0 text = some parens
  | .statement text rest => parensThrough 0 text = some 0 ∧ rest.Fits
  | .stray text rest => parensThrough 0 text = some 0 ∧ rest.Fits
  | .block prelude body rest => parensThrough 0 prelude = some 0 ∧
      BlockKind.of (Text.trim (textOf prelude)) = .other ∧ depthThrough 0 body = some 0 ∧ rest.Fits
  | .group heading body rest =>
    heading.Fits .group ∧ depthThrough 0 body.lexemes = some 0 ∧ body.Fits ∧ rest.Fits
  | .rule heading body rest => heading.Fits .rule ∧ depthThrough 0 body = some 0 ∧ rest.Fits

/-- The stylesheet kept to a scope, with the comments marked that stood in it. What is in front of
the last comment of a prelude is copied, and what is behind it is taken for selectors, unless the
comments stand in front of the prelude of a group. -/
def kept (scope : List Char) (keep : Bool) : Noted → List Lexeme
  | .tail text => text
  | .statement text rest => text ++ .char ';' :: rest.kept scope keep
  | .stray text rest => text ++ .char '}' :: rest.kept scope keep
  | .block prelude body rest =>
    prelude ++ .char '{' :: (body ++ .char '}' :: rest.kept scope keep)
  | .group heading body rest =>
    if heading.Leading then
      heading.lexemes ++
        .char '{' :: (body.kept scope keep ++ .char '}' :: rest.kept scope keep)
    else
      heading.front ++ spell (scopePrelude scope keep (textOf heading.last)) ++
        .char '{' :: (body.lexemes ++ .char '}' :: rest.kept scope keep)
  | .rule heading body rest =>
    heading.front ++ spell (scopePrelude scope keep (textOf heading.last)) ++
      .char '{' :: (body ++ .char '}' :: rest.kept scope keep)

/-! ### Reading -/

variable {noted : Noted}

/-- Without its comments, the stylesheet is read as the items that are told of it. -/
theorem ofLexemes_bareOf (fits : noted.Fits) :
    Sheet.ofLexemes (bareOf noted.lexemes) = .ok noted.sheet := by
  induction noted with
  | tail text =>
    obtain ⟨parens, quiet⟩ := fits
    rw [lexemes, bareOf_eq_self quiet, Sheet.ofLexemes_tail quiet, sheet]
  | statement text rest ih =>
    obtain ⟨quiet, fits⟩ := fits
    rw [lexemes, bareOf_append, bareOf_char, bareOf_eq_self quiet,
      Sheet.ofLexemes_statement quiet, ih fits]
    rfl
  | stray text rest ih =>
    obtain ⟨quiet, fits⟩ := fits
    rw [lexemes, bareOf_append, bareOf_char, bareOf_eq_self quiet, Sheet.ofLexemes_stray quiet,
      ih fits]
    rfl
  | block prelude body rest ih =>
    obtain ⟨quiet, kind, closed, fits⟩ := fits
    rw [← depthThrough_bareOf] at closed
    rw [lexemes, bareOf_append, bareOf_char, bareOf_append, bareOf_char, bareOf_eq_self quiet,
      Sheet.ofLexemes_block quiet closed, kind, ih fits]
    rfl
  | group heading body rest ihBody ih =>
    obtain ⟨heading_fits, closed, body_fits, fits⟩ := fits
    rw [← depthThrough_bareOf] at closed
    have kind : BlockKind.of (Text.trim (textOf (bareOf heading.lexemes))) = .group :=
      heading_fits.kind_text
    rw [lexemes, bareOf_append, bareOf_char, bareOf_append, bareOf_char,
      Sheet.ofLexemes_block heading_fits.quiet closed, kind, ihBody body_fits, ih fits]
    rfl
  | rule heading body rest ih =>
    obtain ⟨heading_fits, closed, fits⟩ := fits
    rw [← depthThrough_bareOf] at closed
    have kind : BlockKind.of (Text.trim (textOf (bareOf heading.lexemes))) = .rule :=
      heading_fits.kind_text
    rw [lexemes, bareOf_append, bareOf_char, bareOf_append, bareOf_char,
      Sheet.ofLexemes_block heading_fits.quiet closed, kind, ih fits]
    rfl

/-- Can lexemes be told as a stylesheet with comments? -/
def Told (lexemes : List Lexeme) : Prop := ∃ noted : Noted, noted.Fits ∧ noted.lexemes = lexemes

/-- A block that is read can be told if what follows it can, and what is inside it. -/
theorem told_block {prelude body rest : List Lexeme} (quiet : parensThrough 0 prelude = some 0)
    (closed : depthThrough 0 body = some 0)
    (inside : ∀ {inner}, Sheet.ofLexemes body = .ok inner → Told body)
    (behind : ∀ {tree}, Sheet.ofLexemes rest = .ok tree → Told rest) {sheet : Sheet}
    (read : Sheet.ofLexemes (prelude ++ .char '{' :: (body ++ .char '}' :: rest)) = .ok sheet) :
    Told (prelude ++ .char '{' :: (body ++ .char '}' :: rest)) := by
  rw [Sheet.ofLexemes_block quiet closed] at read
  cases kind : BlockKind.of (Text.trim (textOf prelude)) with
  | rule =>
    rw [kind] at read
    obtain ⟨tree, found, rfl⟩ := of_map_eq_ok read
    obtain ⟨noted, fits, rfl⟩ := behind found
    exact ⟨.rule ⟨[], prelude⟩ body noted, ⟨Heading.fits_bare quiet kind, closed, fits⟩, rfl⟩
  | other =>
    rw [kind] at read
    obtain ⟨tree, found, rfl⟩ := of_map_eq_ok read
    obtain ⟨noted, fits, rfl⟩ := behind found
    exact ⟨.block prelude body noted, ⟨quiet, kind, closed, fits⟩, rfl⟩
  | group =>
    rw [kind] at read
    cases foundBody : Sheet.ofLexemes body with
    | error => rw [foundBody] at read; cases read
    | ok inner =>
      rw [foundBody] at read
      obtain ⟨tree, found, rfl⟩ := of_map_eq_ok read
      obtain ⟨within, within_fits, rfl⟩ := inside foundBody
      obtain ⟨noted, fits, rfl⟩ := behind found
      exact ⟨.group ⟨[], prelude⟩ within noted,
        ⟨Heading.fits_bare quiet kind, closed, within_fits, fits⟩, rfl⟩

/-- Every stylesheet without comments that can be read can be told so. The induction is on the
number of lexemes: what is behind an item, and what is inside its block, has fewer. -/
theorem told_of_read {lexemes : List Lexeme} {sheet : Sheet}
    (read : Sheet.ofLexemes lexemes = .ok sheet) (bare : commentsOf lexemes = []) :
    Told lexemes := by
  induction length : lexemes.length using Nat.strongRecOn generalizing lexemes sheet with
  | _ n ih =>
    subst length
    have shorter : ∀ {part : List Lexeme} {tree : Sheet}, part.length < lexemes.length →
        commentsOf part = [] → Sheet.ofLexemes part = .ok tree → Told part :=
      fun lt bare read => ih _ lt read bare rfl
    clear ih
    rcases nextEnd_cases 0 lexemes with quiet | ⟨text, after, stop, rest, rfl, quiet, ends⟩
    · exact ⟨.tail lexemes, quiet, rfl⟩
    rw [commentsOf_append] at bare
    have none := (List.append_eq_nil_iff.1 bare).2
    cases stop with
    | comment c => cases none
    | quoted q => cases ends
    | char c =>
      rw [commentsOf_char] at none
      simp only [endsItem, Bool.and_eq_true, Bool.or_eq_true, decide_eq_true_iff,
        beq_iff_eq] at ends
      obtain ⟨rfl, (rfl | rfl) | rfl⟩ := ends
      · rcases closeBlock_cases 0 rest with unclosed | ⟨body, rest, rfl, closed⟩
        · rw [Sheet.ofLexemes_unclosed quiet unclosed] at read
          cases read
        · rw [commentsOf_append, commentsOf_char] at none
          obtain ⟨none_inside, none_behind⟩ := List.append_eq_nil_iff.1 none
          exact told_block quiet closed (shorter (by simp; omega) none_inside)
            (shorter (by simp; omega) none_behind) read
      · rw [Sheet.ofLexemes_stray quiet] at read
        obtain ⟨tree, found, rfl⟩ := of_map_eq_ok read
        obtain ⟨noted, fits, rfl⟩ := shorter (by simp; omega) none found
        exact ⟨.stray text noted, ⟨quiet, fits⟩, rfl⟩
      · rw [Sheet.ofLexemes_statement quiet] at read
        obtain ⟨tree, found, rfl⟩ := of_map_eq_ok read
        obtain ⟨noted, fits, rfl⟩ := shorter (by simp; omega) none found
        exact ⟨.statement text noted, ⟨quiet, fits⟩, rfl⟩

/-- With its comments, the stylesheet is read, and scoping makes of it what is told. -/
theorem exists_ofLexemes (fits : noted.Fits) (scope : List Char) (keep : Bool) :
    ∃ sheet, Sheet.ofLexemes noted.lexemes = .ok sheet ∧
      (sheet.scope scope keep).text = textOf (noted.kept scope keep) := by
  induction noted with
  | tail text =>
    obtain ⟨parens, quiet⟩ := fits
    exact ⟨_, Sheet.ofLexemes_tail quiet, rfl⟩
  | statement text rest ih =>
    obtain ⟨quiet, fits⟩ := fits
    obtain ⟨sheet, read, written⟩ := ih fits
    refine ⟨.statement (textOf text ++ [';']) sheet, ?_, ?_⟩
    · rw [lexemes, Sheet.ofLexemes_statement quiet, read]
      rfl
    · rw [Sheet.scope, Sheet.text, written, kept, textOf_append, textOf_char, List.append_assoc,
        List.singleton_append]
  | stray text rest ih =>
    obtain ⟨quiet, fits⟩ := fits
    obtain ⟨sheet, read, written⟩ := ih fits
    refine ⟨.stray (textOf text ++ ['}']) sheet, ?_, ?_⟩
    · rw [lexemes, Sheet.ofLexemes_stray quiet, read]
      rfl
    · rw [Sheet.scope, Sheet.text, written, kept, textOf_append, textOf_char, List.append_assoc,
        List.singleton_append]
  | block prelude body rest ih =>
    obtain ⟨quiet, kind, closed, fits⟩ := fits
    obtain ⟨sheet, read, written⟩ := ih fits
    refine ⟨.block (textOf prelude) (textOf body) sheet, ?_, ?_⟩
    · rw [lexemes, Sheet.ofLexemes_block quiet closed, kind, read]
      rfl
    · rw [Sheet.scope, Sheet.text, written, kept, textOf_append, textOf_char, textOf_append,
        textOf_char, List.append_assoc, List.cons_append]
  | group heading body rest ihBody ih =>
    obtain ⟨heading_fits, closed, body_fits, fits⟩ := fits
    obtain ⟨inner, readInner, writtenInner⟩ := ihBody body_fits
    obtain ⟨sheet, read, written⟩ := ih fits
    by_cases leading : heading.Leading
    · have block := Sheet.ofLexemes_block heading_fits.quiet_last closed rest.lexemes
      rw [Heading.kind_of_leading heading_fits leading, readInner, read] at block
      obtain ⟨whole, found, text⟩ :=
        Heading.exists_ofLexemes heading_fits.quiet_parts scope keep block
      rw [← List.append_assoc] at found
      refine ⟨whole, found, ?_⟩
      rw [text, kept, if_pos leading, Heading.lexemes, Sheet.scope, Sheet.text, written,
        writtenInner]
      simp only [textOf_append, textOf_char, List.append_assoc, List.cons_append]
      rfl
    · have rule := heading_fits.kind_last.resolve_left leading
      obtain ⟨whole, found, text⟩ :=
        Heading.exists_ofLexemes_rule heading_fits rule closed scope keep read
      refine ⟨whole, found, ?_⟩
      rw [text, written, kept, if_neg leading]
      simp only [textOf_append, textOf_char, textOf_spell, List.append_assoc]
  | rule heading body rest ih =>
    obtain ⟨heading_fits, closed, fits⟩ := fits
    obtain ⟨sheet, read, written⟩ := ih fits
    obtain ⟨whole, found, text⟩ := Heading.exists_ofLexemes_rule heading_fits
      (Heading.kind_of_rule heading_fits) closed scope keep read
    refine ⟨whole, found, ?_⟩
    rw [text, written, kept]
    simp only [textOf_append, textOf_char, textOf_spell, List.append_assoc]

/-- The comments that stood in the stylesheet are there afterwards. -/
theorem commentsOf_kept (fits : noted.Fits) (scope : List Char) (keep : Bool) :
    commentsOf (noted.kept scope keep) = commentsOf noted.lexemes := by
  induction noted with
  | tail text => rfl
  | statement text rest ih | stray text rest ih =>
    obtain ⟨_, fits⟩ := fits
    rw [kept, lexemes, commentsOf_append, commentsOf_append, commentsOf_char, commentsOf_char,
      ih fits]
  | block prelude body rest ih =>
    obtain ⟨_, _, _, fits⟩ := fits
    simp only [kept, lexemes, commentsOf_append, commentsOf_char, ih fits]
  | group heading body rest ihBody ih =>
    obtain ⟨heading_fits, _, body_fits, fits⟩ := fits
    rw [kept]
    split
    next => simp only [lexemes, commentsOf_append, commentsOf_char, ihBody body_fits, ih fits]
    next =>
      simp only [lexemes, Heading.lexemes, commentsOf_append, commentsOf_char, commentsOf_spell,
        commentsOf_eq_nil heading_fits.quiet_last, ih fits]
  | rule heading body rest ih =>
    obtain ⟨heading_fits, _, fits⟩ := fits
    simp only [kept, lexemes, Heading.lexemes, commentsOf_append, commentsOf_char,
      commentsOf_spell, commentsOf_eq_nil heading_fits.quiet_last, ih fits]

/-! ### Texts -/

/-- What scoping makes of the text with the comments, and of the text without them. -/
theorem scopeText_eq (fits : noted.Fits) {css commented : String}
    (bare : Css.lexemes css.toList = bareOf noted.lexemes)
    (full : Css.lexemes commented.toList = noted.lexemes) (scope : String) (keep : Bool) :
    scopeText css scope keep =
        .ok (String.ofList (noted.sheet.scope scope.toList keep).text) ∧
      scopeText commented scope keep =
        .ok (String.ofList (textOf (noted.kept scope.toList keep))) := by
  obtain ⟨sheet, read, written⟩ := noted.exists_ofLexemes fits scope.toList keep
  rw [← full] at read
  have bare_read := noted.ofLexemes_bareOf fits
  rw [← bare] at bare_read
  constructor
  · rw [scopeText, show Sheet.parse css.toList = .ok noted.sheet from bare_read]
  · rw [scopeText, show Sheet.parse commented.toList = .ok sheet from read]
    show Except.ok (String.ofList (sheet.scope scope.toList keep).text) = _
    rw [written]

end Noted

end StyleModule.Css
