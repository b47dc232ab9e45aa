/-!
# JSON values

A value keeps its strings and numerals as they are written: `str` holds what stands between the
quotes, escapes included. Whoever needs the text decodes it, and a string that nobody needs is never
decoded. The members of an object keep their order, and a key may occur more than once.
-/

namespace StyleModule

/-- A value, with strings, keys and numerals as they are written. -/
inductive Json where
  | null
  | bool (value : Bool)
  | num (numeral : List Char)
  | str (body : List Char)
  | arr (items : List Json)
  | obj (members : List (List Char × Json))
  deriving Repr, Inhabited

end StyleModule
