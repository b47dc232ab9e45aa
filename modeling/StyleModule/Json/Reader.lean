import StyleModule.Json.Value
import StyleModule.Json.Quote

/-!
# Reading JSON

The strict grammar of the format, with nothing added: four blanks, no comments, no comma after the
last item, numerals without leading zeros, and no control character in a string. A string is checked
character by character and kept as written; whether its escapes make up characters is for those to
find out who need its text.

The reader is bounded by a number of steps. A value takes at most two for each of its characters, so
`parse?` grants it enough, and never says no for want of steps.
-/

namespace StyleModule.Json

/-- The blanks of the format. -/
def isSpace (c : Char) : Bool := c == ' ' || c == '\t' || c == '\n' || c == '\r'

/-- A text without the blanks it begins with. -/
def skip (s : List Char) : List Char := s.dropWhile isSpace

/-- What stands before the closing quote, as written, and what follows the quote. -/
def readBody : List Char → Option (List Char × List Char)
  | [] => none
  | '"' :: s => some ([], s)
  | '\\' :: 'u' :: a :: b :: c :: d :: s =>
    if (hexUnit? a b c d).isSome then
      (readBody s).map fun (body, rest) => ('\\' :: 'u' :: a :: b :: c :: d :: body, rest)
    else none
  | '\\' :: c :: s =>
    if (shortEscape? c).isSome then (readBody s).map fun (body, rest) => ('\\' :: c :: body, rest)
    else none
  | c :: s =>
    if c = '\\' ∨ c.toNat < 0x20 then none
    else (readBody s).map fun (body, rest) => (c :: body, rest)

/-- The digits a text begins with, at least one, and what follows them. -/
def readDigits (s : List Char) : Option (List Char × List Char) :=
  if s.head?.any Char.isDigit then some (s.takeWhile Char.isDigit, s.dropWhile Char.isDigit)
  else none

/-- The digits before the point: a zero stands alone. -/
def readWhole : List Char → Option (List Char × List Char)
  | '0' :: s => some (['0'], s)
  | s => readDigits s

/-- The point and the digits after it, where there is a point. -/
def readFraction : List Char → Option (List Char × List Char)
  | '.' :: s => (readDigits s).map fun (digits, rest) => ('.' :: digits, rest)
  | s => some ([], s)

/-- The exponent, where there is one. -/
def readExponent : List Char → Option (List Char × List Char)
  | e :: s =>
    if e = 'e' ∨ e = 'E' then
      match s with
      | sign :: t =>
        if sign = '+' ∨ sign = '-' then
          (readDigits t).map fun (digits, rest) => (e :: sign :: digits, rest)
        else (readDigits s).map fun (digits, rest) => (e :: digits, rest)
      | [] => none
    else some ([], e :: s)
  | [] => some ([], [])

/-- A numeral without its sign. -/
def readUnsigned (s : List Char) : Option (List Char × List Char) := do
  let (whole, s) ← readWhole s
  let (fraction, s) ← readFraction s
  let (exponent, s) ← readExponent s
  some (whole ++ fraction ++ exponent, s)

/-- A numeral, and what follows it. -/
def readNumeral : List Char → Option (List Char × List Char)
  | '-' :: s => (readUnsigned s).map fun (numeral, rest) => ('-' :: numeral, rest)
  | s => readUnsigned s

mutual

/-- The value a text begins with, and what follows it. -/
def readValue : Nat → List Char → Option (Json × List Char)
  | 0, _ => none
  | n + 1, s =>
    match s with
    | 'n' :: 'u' :: 'l' :: 'l' :: s => some (.null, s)
    | 't' :: 'r' :: 'u' :: 'e' :: s => some (.bool true, s)
    | 'f' :: 'a' :: 'l' :: 's' :: 'e' :: s => some (.bool false, s)
    | '"' :: s => (readBody s).map fun (body, rest) => (.str body, rest)
    | '[' :: s =>
      match skip s with
      | ']' :: s => some (.arr [], s)
      | s => (readItems n s).map fun (items, rest) => (.arr items, rest)
    | '{' :: s =>
      match skip s with
      | '}' :: s => some (.obj [], s)
      | s => (readMembers n s).map fun (members, rest) => (.obj members, rest)
    | s => (readNumeral s).map fun (numeral, rest) => (.num numeral, rest)

/-- The items up to the closing bracket, and what follows it. -/
def readItems : Nat → List Char → Option (List Json × List Char)
  | 0, _ => none
  | n + 1, s => do
    let (item, s) ← readValue n s
    match skip s with
    | ',' :: s => (readItems n (skip s)).map fun (items, rest) => (item :: items, rest)
    | ']' :: s => some ([item], s)
    | _ => none

/-- The members up to the closing brace, and what follows it. -/
def readMembers : Nat → List Char → Option (List (List Char × Json) × List Char)
  | 0, _ => none
  | n + 1, s =>
    match s with
    | '"' :: s => do
      let (key, s) ← readBody s
      match skip s with
      | ':' :: s => do
        let (value, s) ← readValue n (skip s)
        match skip s with
        | ',' :: s =>
          (readMembers n (skip s)).map fun (members, rest) => ((key, value) :: members, rest)
        | '}' :: s => some ([(key, value)], s)
        | _ => none
      | _ => none
    | _ => none

end

/-- The value that a whole text writes, blanks around it set aside. -/
def parse? (text : String) : Option Json :=
  match readValue (2 * text.length + 2) (skip text.toList) with
  | some (value, rest) => if skip rest = [] then some value else none
  | none => none

end StyleModule.Json
