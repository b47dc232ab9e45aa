/-!
# Letter case, as far as ASCII is concerned

The full case mappings of a character, restricted to what can show in a text of which only the ASCII
characters are kept: ASCII letters, and the characters outside ASCII whose mapping holds an ASCII
letter, or leads to one that does. Every other character is its own image here, and its true image
is as foreign to ASCII as the character itself.

A mapping may give several characters: `ß` in capitals is `SS`.
-/

namespace StyleModule.Text

/-- The small form of a character: three capitals outside ASCII matter, the Kelvin sign, the dotted
capital `I`, and the capital sharp `s`, whose small form has an ASCII capital form. -/
def lower (c : Char) : List Char :=
  match c with
  | '\u212a' => ['k']
  | '\u0130' => ['i', '\u0307']
  | '\u1e9e' => ['\u00df']
  | c => [c.toLower]

/-- The capital form of a character: the dotless `i`, the long and the sharp `s`, the letters with a
mark that has no capital of its own, and the ligatures lead into ASCII. -/
def upper (c : Char) : List Char :=
  match c with
  | '\u0131' => ['I']
  | '\u017f' => ['S']
  | '\u00df' => ['S', 'S']
  | '\u0149' => ['\u02bc', 'N']
  | '\u01f0' => ['J', '\u030c']
  | '\u1e96' => ['H', '\u0331']
  | '\u1e97' => ['T', '\u0308']
  | '\u1e98' => ['W', '\u030a']
  | '\u1e99' => ['Y', '\u030a']
  | '\u1e9a' => ['A', '\u02be']
  | '\ufb00' => ['F', 'F']
  | '\ufb01' => ['F', 'I']
  | '\ufb02' => ['F', 'L']
  | '\ufb03' => ['F', 'F', 'I']
  | '\ufb04' => ['F', 'F', 'L']
  | '\ufb05' => ['S', 'T']
  | '\ufb06' => ['S', 'T']
  | c => [c.toUpper]

/-- A text in small letters. -/
def lowerAll (s : List Char) : List Char := s.flatMap lower

/-- A text with its first character in capitals. -/
def capitalize : List Char → List Char
  | [] => []
  | c :: s => upper c ++ s

end StyleModule.Text
