import StyleModule.Text.Blank
import StyleModule.Text.LetterCase

/-!
# Identifiers from file names

A file name is read as words. Words are separated by spaces, dashes and punctuation, and a capital
letter or a digit begins a word of its own; what follows the first `?`, `#`, `&` or `=` is no part
of the name. The words are written in camel case, all but ASCII letters and digits is left out, and
a result that a program could not use as a name, because it begins with a digit or is a keyword, is
put behind an underscore.
-/

namespace StyleModule.Name

/-- The words that the language keeps for itself. -/
def keywords : List String :=
  ["await", "break", "case", "catch", "class", "const", "continue", "debugger", "default", "delete",
    "do", "else", "enum", "export", "extends", "false", "finally", "for", "function", "if",
    "implements", "import", "in", "instanceof", "interface", "let", "new", "null", "package",
    "private", "protected", "public", "return", "static", "super", "switch", "this", "throw",
    "true", "try", "typeof", "var", "void", "while", "with", "yield"]

/-- A character that begins the query part of a name. -/
def beginsQuery (c : Char) : Bool := c == '?' || c == '#' || c == '&' || c == '='

/-- A character that stands between words: the space, the dash, and punctuation. -/
def isSeparator (c : Char) : Bool := " -|;$%@\"<>()+,._!/\\\x7b\x7d".toList.contains c

/-- A space is put before every capital letter and every digit. -/
def spaced (s : List Char) : List Char :=
  s.flatMap fun c => if c.isUpper || c.isDigit then [' ', c] else [c]

/-- The words of a name; two separators in a row have an empty word between them. -/
def wordsOf (s : List Char) : List (List Char) :=
  (Text.trim (spaced (s.takeWhile fun c => !beginsQuery c))).splitOnP isSeparator

/-- Words run together, each in small letters with its first letter a capital. -/
def joinWords (words : List (List Char)) : List Char :=
  words.flatMap fun word => Text.capitalize (Text.lowerAll word)

/-- A text whose first letter is a small one. -/
def uncapitalize : List Char → List Char
  | [] => []
  | c :: s => c.toLower :: s

/-- An underscore goes before what cannot stand as a name. -/
def protect (s : List Char) : List Char :=
  if s.head?.any Char.isDigit || (keywords.map String.toList).contains s then '_' :: s else s

/-- The identifier that a name is turned into; nothing where no letter or digit is left. -/
def identifierOf (s : List Char) : List Char :=
  protect (uncapitalize ((joinWords (wordsOf s)).filter Char.isAlphanum))

/-- `identifierOf` on strings. -/
def toIdentifier (name : String) : String := String.ofList (identifierOf name.toList)

end StyleModule.Name
