/-!
# Comments

Which part of a stylesheet is comment, as its imports are looked for. A quote that no backslash
stands before opens a string, or closes it when it is of the kind that opened it; the backslash may
stand outside the string, and may itself be preceded by one. Where no string is open, `/*` begins a
comment, which runs to the next `*/` after it, or to the end of the text.
-/

namespace StyleModule.Css

/-- What a reader of the text knows at a character: the quote of the string that is open, if one is,
and whether a backslash stands just before; or that a comment is open. -/
inductive Reading where
  | text (quote : Option Char) (escaped : Bool)
  | comment
  deriving DecidableEq, Repr

/-- A quote of either kind. -/
def isQuote (c : Char) : Bool := c == '"' || c == '\''

theorem isQuote_iff {c : Char} : isQuote c = true ↔ c = '"' ∨ c = '\'' := by
  rw [isQuote, Bool.or_eq_true, beq_iff_eq, beq_iff_eq]

/-- The string that is open after a character: an unescaped quote opens one or closes its own. -/
def quoteAfter (quote : Option Char) (escaped : Bool) (c : Char) : Option Char :=
  if !escaped && isQuote c then
    match quote with
    | none => some c
    | some q => if q = c then none else some q
  else quote

theorem quoteAfter_of_not_quote {c : Char} (other : isQuote c = false) (quote : Option Char)
    (escaped : Bool) : quoteAfter quote escaped c = quote := by
  simp [quoteAfter, other]

/-- A string is closed by its own quote alone. -/
theorem quoteAfter_of_ne {quote c : Char} (other : c ≠ quote) (escaped : Bool) :
    quoteAfter (some quote) escaped c = some quote := by
  simp [quoteAfter, other.symm]

/-- The characters that are in no comment, from a state of reading on. -/
def liveFrom : Reading → List Char → List Char
  | _, [] => []
  | .text none _, '/' :: '*' :: s => liveFrom .comment s
  | .text quote escaped, c :: s =>
    c :: liveFrom (.text (quoteAfter quote escaped c) (c == '\\')) s
  | .comment, '*' :: '/' :: s => liveFrom (.text none false) s
  | .comment, _ :: s => liveFrom .comment s

/-- A stylesheet without its comments. -/
def withoutComments (s : List Char) : List Char := liveFrom (.text none false) s

end StyleModule.Css
