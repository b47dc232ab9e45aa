import StyleModule.Json.Value
import StyleModule.Json.Quote

/-!
# Writing JSON

Two layouts of one value. The compact one has no blank between its pieces; the other gives every
item and member a line of its own, two spaces deeper than what holds it, and writes what is empty
as the compact layout does.
-/

namespace StyleModule.Json

/-- A string value that holds a text. -/
def ofText (s : String) : Json := .str (escape s.toList)

/-- A number value. -/
def ofNat (n : Nat) : Json := .num (Nat.toDigits 10 n)

/-- How a truth value is written. -/
def boolText (b : Bool) : List Char := if b then "true".toList else "false".toList

mutual

/-- The value with no blank between its pieces. -/
def compact : Json → List Char
  | .null => "null".toList
  | .bool b => boolText b
  | .num numeral => numeral
  | .str body => '"' :: body ++ ['"']
  | .arr items => '[' :: compactItems items ++ [']']
  | .obj members => '{' :: compactMembers members ++ ['}']

/-- Items with commas between them. -/
def compactItems : List Json → List Char
  | [] => []
  | [item] => item.compact
  | item :: items => item.compact ++ ',' :: compactItems items

/-- Members with commas between them. -/
def compactMembers : List (List Char × Json) → List Char
  | [] => []
  | [(key, value)] => '"' :: key ++ '"' :: ':' :: value.compact
  | (key, value) :: members =>
    '"' :: key ++ '"' :: ':' :: value.compact ++ ',' :: compactMembers members

end

/-- A line break, and the blanks that the line at a depth begins with. -/
def newLine (depth : Nat) : List Char := '\n' :: List.replicate (2 * depth) ' '

mutual

/-- The value with each item and member on a line of its own; the lines that hold them are `depth`
levels deep. -/
def indented (depth : Nat) : Json → List Char
  | .arr (item :: items) =>
    '[' :: newLine (depth + 1) ++ indentedItems (depth + 1) (item :: items) ++
      newLine depth ++ [']']
  | .obj (member :: members) =>
    '{' :: newLine (depth + 1) ++ indentedMembers (depth + 1) (member :: members) ++
      newLine depth ++ ['}']
  | value => value.compact

/-- Items on lines of their own. -/
def indentedItems (depth : Nat) : List Json → List Char
  | [] => []
  | [item] => item.indented depth
  | item :: items => item.indented depth ++ ',' :: newLine depth ++ indentedItems depth items

/-- Members on lines of their own, with a blank behind the colon. -/
def indentedMembers (depth : Nat) : List (List Char × Json) → List Char
  | [] => []
  | [(key, value)] => '"' :: key ++ '"' :: ':' :: ' ' :: value.indented depth
  | (key, value) :: members =>
    '"' :: key ++ '"' :: ':' :: ' ' :: value.indented depth ++ ',' :: newLine depth ++
      indentedMembers depth members

end

/-- The compact text of a value. -/
def render (j : Json) : String := String.ofList j.compact

/-- The text of a value over several lines. -/
def renderLines (j : Json) : String := String.ofList (j.indented 0)

end StyleModule.Json
