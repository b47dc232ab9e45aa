import StyleModule.Proofs.Css.Classes
import StyleModule.Proofs.Css.Notes
import StyleModule.Proofs.Css.Scoped

/-!
# Where comments do no harm

Comments in preludes are not always without effect on what is scoped. They are harmless
(`Noted.Harmless`) where those of a group stand in front of its prelude, and where it makes no
difference, up to runs of blanks, whether the selectors of a style rule are scoped as one list or
only what is behind the last comment.

This is sufficient (`Noted.keptThenBare_eq`), and with no brace in a prelude, and no host mark in
that of a group, it is necessary (`Noted.harmless_of_append`): the braces tell the preludes apart,
and a group of whose prelude a part was taken for selectors is betrayed by the class that it got.

Of the comments in the prelude of a style rule, those in front of it are harmless
(`Heading.harmless_of_leading`). Where the list has no mark in it and is not kept in a comment,
harmless comments have as many selectors behind them as there are
(`Heading.Harmless.length_splitList`), so one behind a comma is not harmless.
-/

namespace StyleModule.Css

open Text (squeeze dark)

variable {scope : List Char} {keep : Bool}

/-- Blanks in front of a prelude stay in front of it. -/
theorem scopePrelude_append {blanks : List Char} (blank : Text.allBlank blanks = true)
    (s : List Char) :
    scopePrelude scope keep (blanks ++ s) = blanks ++ scopePrelude scope keep s := by
  obtain ⟨leading, core, trailing, margins, rfl⟩ := Text.exists_margins s
  rw [scopePrelude_eq margins, ← List.append_assoc, scopePrelude_eq (margins.prepend blank),
    List.append_assoc]

/-- A scope without a brace brings none into a prelude. -/
theorem brace_not_mem_scopePrelude (unscoped : '{' ∉ scope) {s : List Char} (plain : '{' ∉ s) :
    '{' ∉ scopePrelude scope keep s := by
  intro brace
  rcases mem_scopePrelude brace with mem | mem | mem
  · exact unscoped mem
  · exact absurd mem (by decide)
  · exact plain mem

/-! ## Preludes -/

namespace Heading

/-- Is as much scoped behind the comments as without them? -/
def Harmless (scope : List Char) (keep : Bool) (h : Heading) : Prop :=
  squeeze (h.before ++ scopePrelude scope keep (textOf h.last)) =
    squeeze (scopePrelude scope keep h.text)

instance (h : Heading) : Decidable (h.Harmless scope keep) := inferInstanceAs (Decidable (_ = _))

variable {h : Heading} {kind : BlockKind}

/-- Comments in front of a list of selectors are harmless. -/
theorem harmless_of_leading (fits : h.Fits kind) (leading : h.Leading) : h.Harmless scope keep := by
  rw [Harmless, text_eq fits, scopePrelude_append leading]

/-- Harmless comments leave as many selectors behind them as there are without them. -/
theorem Harmless.length_splitList (fits : h.Fits kind) (harmless : h.Harmless scope false)
    (markless : Markless h.text) :
    (splitList 0 (Text.trim (textOf h.last))).length = (splitList 0 (Text.trim h.text)).length := by
  have last : Markless (textOf h.last) :=
    markless.of_piece (text_eq fits ▸ (List.suffix_append ..).isInfix)
  have parts := congrArg (List.length ∘ dark) (text_eq fits)
  have same := congrArg (List.length ∘ dark) harmless
  simp only [Function.comp, Text.dark_squeeze, Text.dark_append, List.length_append,
    length_dark_scopePrelude _ markless, length_dark_scopePrelude _ last,
    if_neg Bool.false_ne_true] at parts same
  refine Nat.eq_of_mul_eq_mul_right (Nat.succ_pos (dark scope).length) ?_
  rw [Nat.succ_eq_add_one]
  omega

/-- A comment behind a comma is not harmless: the selector in front of it is copied as it is. -/
example :
    ¬ Harmless "s".toList false ⟨[(spell ".a,".toList, "/**/".toList)], spell ".b".toList⟩ := by
  decide +kernel

/-- A part of a prelude without marks that is taken for selectors is seen to be one. -/
theorem squeeze_ne (fits : h.Fits kind) (markless : Markless (textOf h.last)) :
    squeeze (h.before ++ scopePrelude scope keep (textOf h.last)) ≠ squeeze h.text := by
  intro same
  have lengths := congrArg (List.length ∘ dark) same
  have selectors := List.length_pos_iff.2 (splitList_ne_nil 0 (Text.trim (textOf h.last)))
  rw [text_eq fits] at lengths
  simp only [Function.comp, Text.dark_squeeze, Text.dark_append, List.length_append,
    length_dark_scopePrelude _ markless] at lengths
  have written : 0 < (splitList 0 (Text.trim (textOf h.last))).length * ((dark scope).length + 1) :=
    Nat.mul_pos selectors (Nat.succ_pos _)
  omega

theorem brace_not_mem_front (fits : h.Fits kind) (unscoped : '{' ∉ scope) (plain : '{' ∉ h.text) :
    '{' ∉ squeeze (h.before ++ scopePrelude scope keep (textOf h.last)) := by
  intro brace
  rw [text_eq fits, List.mem_append, not_or] at plain
  rcases List.mem_append.1 (Text.mem_of_mem_squeeze rfl brace) with mem | mem
  · exact plain.1 mem
  · exact brace_not_mem_scopePrelude unscoped plain.2 mem

end Heading

/-! ## Stylesheets -/

namespace Noted

/-- Comments that stand in front of the preludes of groups, and do no harm in those of style
rules. -/
def Harmless (scope : List Char) (keep : Bool) : Noted → Prop
  | .tail _ => True
  | .statement _ rest => rest.Harmless scope keep
  | .stray _ rest => rest.Harmless scope keep
  | .block _ _ rest => rest.Harmless scope keep
  | .group heading body rest =>
    heading.Leading ∧ body.Harmless scope keep ∧ rest.Harmless scope keep
  | .rule heading _ rest => heading.Harmless scope keep ∧ rest.Harmless scope keep

/-- Preludes by which what was written can be told apart again: no brace is in them, and no mark of
a host element or slotted content in those of groups. -/
def Plain : Noted → Prop
  | .tail _ => True
  | .statement _ rest => rest.Plain
  | .stray _ rest => rest.Plain
  | .block _ _ rest => rest.Plain
  | .group heading body rest =>
    '{' ∉ heading.text ∧ Markless (textOf heading.last) ∧ body.Plain ∧ rest.Plain
  | .rule heading _ rest => '{' ∉ heading.text ∧ rest.Plain

/-! ### Two ways to the same text -/

/-- The stylesheet kept to a scope and then without its comments, up to runs of blanks. -/
def keptThenBare (scope : List Char) (keep : Bool) (noted : Noted) : List Char :=
  squeeze (textOf (bareOf (noted.kept scope keep)))

/-- The stylesheet without its comments and then kept to a scope, up to runs of blanks. -/
def bareThenKept (scope : List Char) (keep : Bool) (noted : Noted) : List Char :=
  squeeze (noted.sheet.scope scope keep).text

section Texts

variable (scope : List Char) (keep : Bool)

theorem squeeze_bareOf {c : Char} (plain : Text.isBlank c = false) (a b : List Lexeme) :
    squeeze (textOf (bareOf (a ++ .char c :: b))) =
      squeeze (textOf (bareOf a)) ++ c :: squeeze (textOf (bareOf b)) := by
  rw [bareOf_append, bareOf_char, textOf_append, textOf_char, Text.squeeze_append_cons plain]

/-- Lexemes in which no item ends are written as they are. -/
theorem squeeze_quiet {c : Char} {parens after : Nat} {a : List Lexeme}
    (plain : Text.isBlank c = false) (quiet : parensThrough parens a = some after)
    (b : List Lexeme) :
    squeeze (textOf (bareOf (a ++ .char c :: b))) =
      squeeze (textOf a) ++ c :: squeeze (textOf (bareOf b)) := by
  rw [squeeze_bareOf plain, bareOf_eq_self quiet]

theorem squeeze_ended {c : Char} (plain : Text.isBlank c = false) (a b : List Char) :
    squeeze (a ++ [c] ++ b) = squeeze a ++ c :: squeeze b := by
  rw [List.append_assoc, List.singleton_append, Text.squeeze_append_cons plain]

theorem squeeze_block (prelude body rest : List Char) :
    squeeze (prelude ++ '{' :: body ++ '}' :: rest) =
      squeeze prelude ++ '{' :: (squeeze body ++ '}' :: squeeze rest) := by
  rw [List.append_assoc, List.cons_append, Text.squeeze_append_cons rfl,
    Text.squeeze_append_cons rfl]

/-- What scoping makes of a prelude whose end is taken for selectors, with its block. -/
theorem squeeze_front (h : Heading) (body rest : List Lexeme) :
    squeeze (textOf (bareOf (h.front ++ spell (scopePrelude scope keep (textOf h.last)) ++
        .char '{' :: (body ++ .char '}' :: rest)))) =
      squeeze (h.before ++ scopePrelude scope keep (textOf h.last)) ++
        '{' :: (squeeze (textOf (bareOf body)) ++ '}' :: squeeze (textOf (bareOf rest))) := by
  rw [squeeze_bareOf rfl, squeeze_bareOf rfl, bareOf_append, textOf_append, bareOf_spell,
    textOf_spell]
  rfl

variable {text prelude body : List Lexeme} {heading : Heading} (within rest : Noted)

theorem keptThenBare_statement (quiet : parensThrough 0 text = some 0) :
    (statement text rest).keptThenBare scope keep =
      squeeze (textOf text) ++ ';' :: rest.keptThenBare scope keep :=
  squeeze_quiet rfl quiet _

theorem bareThenKept_statement :
    (statement text rest).bareThenKept scope keep =
      squeeze (textOf text) ++ ';' :: rest.bareThenKept scope keep :=
  squeeze_ended rfl _ _

theorem keptThenBare_stray (quiet : parensThrough 0 text = some 0) :
    (stray text rest).keptThenBare scope keep =
      squeeze (textOf text) ++ '}' :: rest.keptThenBare scope keep :=
  squeeze_quiet rfl quiet _

theorem bareThenKept_stray :
    (stray text rest).bareThenKept scope keep =
      squeeze (textOf text) ++ '}' :: rest.bareThenKept scope keep :=
  squeeze_ended rfl _ _

theorem keptThenBare_block (quiet : parensThrough 0 prelude = some 0) :
    (block prelude body rest).keptThenBare scope keep =
      squeeze (textOf prelude) ++
        '{' :: (squeeze (textOf (bareOf body)) ++ '}' :: rest.keptThenBare scope keep) := by
  rw [keptThenBare, kept, squeeze_quiet rfl quiet, squeeze_bareOf rfl]
  rfl

theorem bareThenKept_block :
    (block prelude body rest).bareThenKept scope keep =
      squeeze (textOf prelude) ++
        '{' :: (squeeze (textOf (bareOf body)) ++ '}' :: rest.bareThenKept scope keep) :=
  squeeze_block ..

theorem keptThenBare_group (leading : heading.Leading) :
    (group heading within rest).keptThenBare scope keep =
      squeeze heading.text ++
        '{' :: (within.keptThenBare scope keep ++ '}' :: rest.keptThenBare scope keep) := by
  rw [keptThenBare, kept, if_pos leading, squeeze_bareOf rfl, squeeze_bareOf rfl]
  rfl

theorem keptThenBare_group_of_not_leading (comes : ¬ heading.Leading) :
    (group heading within rest).keptThenBare scope keep =
      squeeze (heading.before ++ scopePrelude scope keep (textOf heading.last)) ++
        '{' :: (squeeze (textOf (bareOf within.lexemes)) ++
          '}' :: rest.keptThenBare scope keep) := by
  rw [keptThenBare, kept, if_neg comes, squeeze_front]
  rfl

theorem bareThenKept_group :
    (group heading within rest).bareThenKept scope keep =
      squeeze heading.text ++
        '{' :: (within.bareThenKept scope keep ++ '}' :: rest.bareThenKept scope keep) :=
  squeeze_block ..

theorem keptThenBare_rule :
    (rule heading body rest).keptThenBare scope keep =
      squeeze (heading.before ++ scopePrelude scope keep (textOf heading.last)) ++
        '{' :: (squeeze (textOf (bareOf body)) ++ '}' :: rest.keptThenBare scope keep) :=
  squeeze_front ..

theorem bareThenKept_rule :
    (rule heading body rest).bareThenKept scope keep =
      squeeze (scopePrelude scope keep heading.text) ++
        '{' :: (squeeze (textOf (bareOf body)) ++ '}' :: rest.bareThenKept scope keep) :=
  squeeze_block ..

end Texts

variable {noted : Noted}

/-- Harmless comments make no difference to what is scoped. -/
theorem keptThenBare_eq (fits : noted.Fits) (harmless : noted.Harmless scope keep) :
    noted.keptThenBare scope keep = noted.bareThenKept scope keep := by
  induction noted with
  | tail text =>
    obtain ⟨parens, quiet⟩ := fits
    rw [keptThenBare, kept, bareOf_eq_self quiet]
    rfl
  | statement text rest ih =>
    obtain ⟨quiet, fits⟩ := fits
    rw [keptThenBare_statement scope keep rest quiet, ih fits harmless, bareThenKept_statement]
  | stray text rest ih =>
    obtain ⟨quiet, fits⟩ := fits
    rw [keptThenBare_stray scope keep rest quiet, ih fits harmless, bareThenKept_stray]
  | block prelude body rest ih =>
    obtain ⟨quiet, _, _, fits⟩ := fits
    rw [keptThenBare_block scope keep rest quiet, ih fits harmless, bareThenKept_block]
  | group heading body rest ihBody ih =>
    obtain ⟨_, _, body_fits, fits⟩ := fits
    obtain ⟨leading, inside, harmless⟩ := harmless
    rw [keptThenBare_group scope keep body rest leading, ihBody body_fits inside,
      ih fits harmless, bareThenKept_group]
  | rule heading body rest ih =>
    obtain ⟨_, _, fits⟩ := fits
    obtain ⟨here, harmless⟩ := harmless
    rw [keptThenBare_rule, here, ih fits harmless, bareThenKept_rule]

/-- Where comments make no difference in a block, nor in what follows it, they are harmless. -/
theorem harmless_of_append (fits : noted.Fits) (plain : noted.Plain) (unscoped : '{' ∉ scope)
    {s t : List Char}
    (same : noted.keptThenBare scope keep ++ '}' :: s =
      noted.bareThenKept scope keep ++ '}' :: t) :
    noted.Harmless scope keep ∧ s = t := by
  induction noted generalizing s t with
  | tail text =>
    obtain ⟨parens, quiet⟩ := fits
    rw [keptThenBare, kept, bareOf_eq_self quiet] at same
    exact ⟨trivial, (List.cons.inj (List.append_cancel_left same)).2⟩
  | statement text rest ih =>
    obtain ⟨quiet, fits⟩ := fits
    rw [keptThenBare_statement scope keep rest quiet, bareThenKept_statement, List.append_assoc,
      List.append_assoc] at same
    exact ih fits plain (List.cons.inj (List.append_cancel_left same)).2
  | stray text rest ih =>
    obtain ⟨quiet, fits⟩ := fits
    rw [keptThenBare_stray scope keep rest quiet, bareThenKept_stray, List.append_assoc,
      List.append_assoc] at same
    exact ih fits plain (List.cons.inj (List.append_cancel_left same)).2
  | block prelude body rest ih =>
    obtain ⟨quiet, _, _, fits⟩ := fits
    simp only [keptThenBare_block scope keep rest quiet, bareThenKept_block, List.append_assoc,
      List.cons_append, List.append_cancel_left_eq, List.cons.injEq, true_and] at same
    exact ih fits plain same
  | group heading body rest ihBody ih =>
    obtain ⟨heading_fits, _, body_fits, fits⟩ := fits
    obtain ⟨plain_heading, markless, plain_body, plain⟩ := plain
    by_cases leading : heading.Leading
    · simp only [keptThenBare_group scope keep body rest leading, bareThenKept_group,
        List.append_assoc, List.cons_append, List.append_cancel_left_eq, List.cons.injEq,
        true_and] at same
      obtain ⟨inside, same⟩ := ihBody body_fits plain_body same
      obtain ⟨harmless, same⟩ := ih fits plain same
      exact ⟨⟨leading, inside, harmless⟩, same⟩
    · rw [keptThenBare_group_of_not_leading scope keep body rest leading, bareThenKept_group,
        List.append_assoc, List.append_assoc] at same
      have apart : '{' ∉ squeeze heading.text :=
        fun brace => plain_heading (Text.mem_of_mem_squeeze rfl brace)
      have preludes := Text.append_cons_inj
        (Heading.brace_not_mem_front heading_fits unscoped plain_heading) apart same
      exact absurd preludes.1 (Heading.squeeze_ne heading_fits markless)
  | rule heading body rest ih =>
    obtain ⟨heading_fits, _, fits⟩ := fits
    obtain ⟨plain_heading, plain⟩ := plain
    simp only [keptThenBare_rule, bareThenKept_rule, List.append_assoc, List.cons_append] at same
    have apart : '{' ∉ squeeze (scopePrelude scope keep heading.text) := fun brace =>
      brace_not_mem_scopePrelude unscoped plain_heading (Text.mem_of_mem_squeeze rfl brace)
    obtain ⟨here, same⟩ := Text.append_cons_inj
      (Heading.brace_not_mem_front heading_fits unscoped plain_heading) apart same
    rw [List.append_cancel_left_eq, List.cons.injEq] at same
    exact (ih fits plain same.2).imp_left fun harmless => ⟨here, harmless⟩

/-- Where the preludes can be told apart, comments that make no difference are harmless. -/
theorem harmless_of_eq (fits : noted.Fits) (plain : noted.Plain) (unscoped : '{' ∉ scope)
    (same : noted.keptThenBare scope keep = noted.bareThenKept scope keep) :
    noted.Harmless scope keep :=
  (harmless_of_append fits plain unscoped
    (congrArg (· ++ ['}']) same : _ ++ '}' :: [] = _ ++ '}' :: [])).1

/-! ## Texts -/

/-- Two texts that differ by comments in preludes are both kept to a scope, and the comments are
still there in what becomes of the one. Without them it is what becomes of the other, up to runs of
blanks, if they are harmless, and, where the preludes can be told apart, only then. -/
theorem scopeText_commented (noted : Noted) (fits : noted.Fits) {css commented : String}
    (bare : Css.lexemes css.toList = bareOf noted.lexemes)
    (full : Css.lexemes commented.toList = noted.lexemes) (scope : String) (keep : Bool) :
    ∃ out, scopeText css scope keep = .ok out ∧
      scopeText commented scope keep =
        .ok (String.ofList (textOf (noted.kept scope.toList keep))) ∧
      commentsOf (noted.kept scope.toList keep) = commentsOf noted.lexemes ∧
      (noted.Harmless scope.toList keep →
        squeeze (textOf (bareOf (noted.kept scope.toList keep))) = squeeze out.toList) ∧
      (noted.Plain → '{' ∉ scope.toList →
        squeeze (textOf (bareOf (noted.kept scope.toList keep))) = squeeze out.toList →
        noted.Harmless scope.toList keep) := by
  obtain ⟨kept_bare, kept_full⟩ := scopeText_eq fits bare full scope keep
  refine ⟨_, kept_bare, kept_full, commentsOf_kept fits scope.toList keep, ?_, ?_⟩
  · rw [String.toList_ofList]
    exact keptThenBare_eq fits
  · rw [String.toList_ofList]
    exact harmless_of_eq fits

/-- A group with a comment behind the name of its at-rule, and a style rule in it. -/
def noteInGroup : Noted :=
  .group ⟨[(spell "@media ".toList, "/* x */".toList)], spell "screen".toList⟩
    (.rule ⟨[], spell ".a".toList⟩ [] (.tail [])) (.tail [])

/-- The end of the group's prelude is taken for a selector, and the rule is not scoped. -/
theorem scopeText_commented_group :
    noteInGroup.Fits ∧ noteInGroup.Plain ∧
      textOf (noteInGroup.kept "sc-x".toList false) =
        "@media /* x */screen.sc-x\x7b.a\x7b\x7d\x7d".toList ∧
      ∃ out, scopeText "@media screen\x7b.a\x7b\x7d\x7d" "sc-x" false = .ok out ∧
        scopeText "@media /* x */screen\x7b.a\x7b\x7d\x7d" "sc-x" false =
          .ok (String.ofList (textOf (noteInGroup.kept "sc-x".toList false))) ∧
        squeeze (textOf (bareOf (noteInGroup.kept "sc-x".toList false))) ≠ squeeze out.toList := by
  have group : Heading.Fits ⟨[(spell "@media ".toList, "/* x */".toList)], spell "screen".toList⟩
      .group := by
    refine ⟨rfl, ?_, rfl, rfl, .inr rfl⟩
    intro part mem
    rw [List.mem_singleton.1 mem]
    exact ⟨0, rfl⟩
  have rule : Heading.Fits ⟨[], spell ".a".toList⟩ .rule :=
    ⟨rfl, nofun, rfl, rfl, .inl rfl⟩
  have fits : noteInGroup.Fits :=
    ⟨group, rfl, ⟨rule, rfl, 0, rfl⟩, 0, rfl⟩
  have plain : noteInGroup.Plain :=
    ⟨by decide, ⟨rfl, rfl⟩, ⟨by decide, trivial⟩, trivial⟩
  have bare : Css.lexemes "@media screen\x7b.a\x7b\x7d\x7d".toList = bareOf noteInGroup.lexemes :=
    rfl
  have full : Css.lexemes "@media /* x */screen\x7b.a\x7b\x7d\x7d".toList = noteInGroup.lexemes :=
    rfl
  obtain ⟨out, kept, commented, _, _, only⟩ :=
    scopeText_commented noteInGroup fits bare full "sc-x" false
  refine ⟨fits, plain, by decide +kernel, out, kept, commented, fun same => ?_⟩
  exact absurd (only plain (by decide) same).1 (by decide)

end Noted

end StyleModule.Css
