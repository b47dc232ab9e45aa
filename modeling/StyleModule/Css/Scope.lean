import StyleModule.Css.Selector
import StyleModule.Css.Sheet
import StyleModule.Fault

/-!
# Scoping of stylesheets

A stylesheet is kept to a scope by scoping the preludes of its style rules, at every depth of
grouping; all else stays as written. A prelude keeps the blanks at its ends, and is preceded, where
that is asked for, by a comment that holds the selectors as they were.
-/

namespace StyleModule.Css

/-- The comment that keeps a selector list. -/
def keepComment (selectors : List Char) : List Char :=
  "/*!@".toList ++ selectors ++ "*/".toList

/-- The prelude of a style rule kept to a scope. -/
def scopePrelude (scope : List Char) (keep : Bool) (prelude : List Char) : List Char :=
  let selectors := Text.trim prelude
  Text.blankHead prelude ++ (if keep then keepComment selectors else []) ++
    scopeList scope selectors ++ Text.blankTail prelude

/-- A stylesheet kept to a scope: the same items, with the preludes of the style rules scoped. -/
def Sheet.scope (scope : List Char) (keep : Bool) : Sheet → Sheet
  | .tail text => .tail text
  | .comment text rest => .comment text (rest.scope scope keep)
  | .statement text rest => .statement text (rest.scope scope keep)
  | .stray text rest => .stray text (rest.scope scope keep)
  | .block prelude body rest => .block prelude body (rest.scope scope keep)
  | .group prelude body rest => .group prelude (body.scope scope keep) (rest.scope scope keep)
  | .rule prelude body rest =>
    .rule (scopePrelude scope keep prelude) body (rest.scope scope keep)

/-- The text of a stylesheet kept to a scope; a block that is not closed is a fault. -/
def scopeText (css scope : String) (keep : Bool) : Except Fault String :=
  match Sheet.parse css.toList with
  | .ok sheet => .ok (String.ofList (sheet.scope scope.toList keep).text)
  | .error prelude => .error (.unclosedBlock (String.ofList (Text.trim prelude)))

end StyleModule.Css
