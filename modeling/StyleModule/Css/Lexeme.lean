/-!
# Lexemes of a stylesheet

As far as its blocks are concerned, a stylesheet is made of comments, quoted strings and single
characters. A comment runs to the first end mark after its opening, a string to the next quote of
the kind that opened it which no backslash stands before; where that is missing, either runs to the
end of the text.

`textOf_lexemes` says that the lexemes spell the text.
-/

namespace StyleModule.Css

/-- A piece of a stylesheet that is read as one. -/
inductive Lexeme where
  | char (c : Char)
  | quoted (text : List Char)
  | comment (text : List Char)
  deriving DecidableEq, Repr

/-- How a lexeme is written. -/
def Lexeme.text : Lexeme → List Char
  | .char c => [c]
  | .quoted text => text
  | .comment text => text

/-- How lexemes are written one after the other. -/
def textOf (lexemes : List Lexeme) : List Char := lexemes.flatMap Lexeme.text

/-- What a reader of the text is in the middle of. -/
inductive Within where
  | sheet
  | quoted (quote : Char)
  | comment
  deriving DecidableEq, Repr

/-- The rest of what the reader is in the middle of, and the lexemes after it. -/
def lexFrom : Within → List Char → List Char × List Lexeme
  | _, [] => ([], [])
  | .sheet, '/' :: '*' :: s =>
    let (rest, lexemes) := lexFrom .comment s
    ([], .comment ('/' :: '*' :: rest) :: lexemes)
  | .sheet, c :: s =>
    if c = '"' ∨ c = '\'' then
      let (rest, lexemes) := lexFrom (.quoted c) s
      ([], .quoted (c :: rest) :: lexemes)
    else ([], .char c :: (lexFrom .sheet s).2)
  | .quoted quote, '\\' :: c :: s =>
    let (rest, lexemes) := lexFrom (.quoted quote) s
    ('\\' :: c :: rest, lexemes)
  | .quoted quote, c :: s =>
    if c = quote then ([c], (lexFrom .sheet s).2)
    else
      let (rest, lexemes) := lexFrom (.quoted quote) s
      (c :: rest, lexemes)
  | .comment, '*' :: '/' :: s => (['*', '/'], (lexFrom .sheet s).2)
  | .comment, c :: s =>
    let (rest, lexemes) := lexFrom .comment s
    (c :: rest, lexemes)

/-- The lexemes of a stylesheet. -/
def lexemes (s : List Char) : List Lexeme := (lexFrom .sheet s).2

/-- Outside strings and comments nothing is left open. -/
theorem lexFrom_sheet_fst (s : List Char) : (lexFrom .sheet s).1 = [] := by
  generalize h : Within.sheet = within
  fun_cases lexFrom within s with
  | case1 | case2 | case3 | case4 => rfl
  | _ => cases h

/-- What was open and the lexemes after it spell the text. -/
theorem textOf_lexFrom (within : Within) (s : List Char) :
    (lexFrom within s).1 ++ textOf (lexFrom within s).2 = s := by
  fun_induction lexFrom within s <;>
    simp_all [textOf, Lexeme.text, lexFrom_sheet_fst]

/-- The lexemes spell the text. -/
theorem textOf_lexemes (s : List Char) : textOf (lexemes s) = s := by
  have h := textOf_lexFrom .sheet s
  rwa [lexFrom_sheet_fst, List.nil_append] at h

end StyleModule.Css
