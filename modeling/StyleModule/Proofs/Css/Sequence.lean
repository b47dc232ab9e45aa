import StyleModule.Proofs.Css.Scoped
import StyleModule.Proofs.Css.Unclosed

/-!
# Stylesheets one behind the other

Each item of a stylesheet is scoped by itself. Behind a text that is items to its end a stylesheet
is scoped as it would be alone, and fails as it would alone; so it is behind blanks, which are no
item but join the first one (`scopeText_append`).

What is in front must end with its last item. Behind a tail, or behind a comment that is left open,
the first item of what follows would be another.
-/

namespace StyleModule.Css

/-- What is read behind a text, scoped, stands behind what that text becomes. -/
theorem ReadsAs.exists_scopeText {text : String} {front : Sheet → Sheet}
    (reads : ReadsAs text.toList front) (scope : String) (keep : Bool) :
    ∃ out : String, ∀ css,
      scopeText (text ++ css) scope keep = (scopeText css scope keep).map (out ++ ·) := by
  obtain ⟨out, kept⟩ := reads.scope scope.toList keep
  refine ⟨String.ofList out, fun css => ?_⟩
  rw [scopeText, scopeText, String.toList_append, reads.parse]
  cases Sheet.parse css.toList with
  | error prelude => rfl
  | ok sheet =>
    simp only [Except.map]
    rw [kept, String.ofList_append]

/-- Blanks in front of an item are part of it. -/
theorem IsItem.blanks {blanks item : List Char} (first : IsItem item)
    (blank : Text.allBlank blanks = true) : IsItem (blanks ++ item) := by
  have idle := idle_of_allBlank blank
  cases first with
  | comment quiet closed =>
    rw [← List.append_assoc]
    exact .comment (idle.quiet quiet) closed
  | statement quiet =>
    rw [← List.append_assoc]
    exact .statement (idle.quiet quiet)
  | stray quiet =>
    rw [← List.append_assoc]
    exact .stray (idle.quiet quiet)
  | block quiet inside =>
    rw [← List.append_assoc]
    exact .block (idle.quiet quiet) inside

/-- A text is no stylesheet behind blanks where it is none, and the prelude is the same but for
them. -/
theorem exists_parse_eq_error {blanks css prelude : List Char}
    (blank : Text.allBlank blanks = true) (failed : Sheet.parse css = .error prelude) :
    ∃ other, Sheet.parse (blanks ++ css) = .error other ∧ Text.trim other = Text.trim prelude := by
  obtain ⟨items, rest, rfl, all, quiet, unclosed⟩ := parse_eq_error_iff.1 failed
  cases all with
  | nil =>
    -- the blanks join the prelude of the block that is not closed
    refine ⟨blanks ++ prelude, parse_eq_error_iff.2 ⟨[], rest, ?_, .nil, ?_, unclosed⟩,
      Text.trim_append blank prelude⟩
    · simp
    · exact (idle_of_allBlank blank).quiet quiet
  | @cons item items first later =>
    refine ⟨prelude, parse_eq_error_iff.2
      ⟨blanks ++ item ++ items, rest, ?_, .cons (first.blanks blank) later, quiet, unclosed⟩, rfl⟩
    simp

/-- Behind blanks a stylesheet is scoped as it is alone. -/
theorem scopeText_blanks {blanks : String} (blank : Text.allBlank blanks.toList = true)
    (css scope : String) (keep : Bool) :
    scopeText (blanks ++ css) scope keep = (scopeText css scope keep).map (blanks ++ ·) := by
  cases outcome : scopeText css scope keep with
  | ok out =>
    refine Scoped.scopeText ?_
    rw [String.toList_append, String.toList_append]
    exact (scoped_of_scopeText outcome).blanks blank
  | error fault =>
    obtain ⟨prelude, failed, rfl⟩ := scopeText_eq_error.1 outcome
    obtain ⟨other, failedBehind, same⟩ := exists_parse_eq_error blank failed
    refine scopeText_eq_error.2 ⟨other, ?_, by rw [same]⟩
    rw [String.toList_append, failedBehind]

/-- Items are scoped by themselves and a stylesheet behind them by itself, so scoping fails just
where it fails for that, with the same fault. The same holds of blanks in front, which stay. -/
theorem scopeText_append (css scope : String) (keep : Bool) :
    (∀ items : String, Items items.toList → ∃ out, scopeText items scope keep = .ok out ∧
      scopeText (items ++ css) scope keep = (scopeText css scope keep).map (out ++ ·)) ∧
    ∀ blanks : String, Text.allBlank blanks.toList = true →
      scopeText (blanks ++ css) scope keep = (scopeText css scope keep).map (blanks ++ ·) := by
  refine ⟨fun items all => ?_, fun blanks blank => scopeText_blanks blank css scope keep⟩
  obtain ⟨front, reads⟩ := all.exists_readsAs
  obtain ⟨out, behind⟩ := reads.exists_scopeText scope keep
  have nothing : scopeText "" scope keep = .ok "" := Scoped.scopeText (.tail (.cut .nil (.inl rfl)))
  refine ⟨out, ?_, behind css⟩
  have alone := behind ""
  rw [nothing, String.append_empty] at alone
  rw [alone]
  simp [Except.map]

/-- A group and a comment, or blanks, in front of a rule that is not closed. -/
theorem scopeText_append_group :
    let items := "@media x\x7b.a\x7b\x7d\x7d/* c */"
    let css := ".b\x7b"
    Items items.toList ∧ Text.allBlank "\n ".toList = true ∧
      (∃ out, scopeText items "s1" false = .ok out ∧
        scopeText (items ++ css) "s1" false = (scopeText css "s1" false).map (out ++ ·)) ∧
      scopeText ("\n " ++ css) "s1" false = (scopeText css "s1" false).map ("\n " ++ ·) := by
  intro items css
  have group : Quiet 0 "@media x".toList 0 := Idle.quiet_self (by simp [Idle, signs]) 0
  have rule : Inside 0 ".a\x7b\x7d".toList :=
    .char (by decide) (by decide) (by decide) (.char (by decide) (by decide) (by decide)
      (.opens (.closes .nil)))
  have first : ¬ commentEnd <:+: " c ".toList := by decide +kernel
  have comment : IsComment "/* c */".toList := .closed first
  have whole : items.toList = "@media x".toList ++ '{' :: (".a\x7b\x7d".toList ++ ['}']) ++
      ([] ++ "/* c */".toList ++ []) := by decide +kernel
  have all : Items items.toList := by
    rw [whole]
    exact .cons (.block group rule) (.cons (.comment .nil comment) .nil)
  have blank : Text.allBlank "\n ".toList = true := by decide +kernel
  obtain ⟨behindItems, behindBlanks⟩ := scopeText_append css "s1" false
  exact ⟨all, blank, behindItems items all, behindBlanks _ blank⟩

end StyleModule.Css
