/-!
# Blank characters

The characters with the White_Space property, and the three parts they cut a text into: a blank
head, a core that neither begins nor ends with a blank, and a blank tail. A text that is blank
throughout is all head.

`head_core_tail` says that the three parts are the whole text, so a caller may replace the core and
keep the margins as written.
-/

namespace StyleModule.Text

/-- A character with the White_Space property: the ASCII controls from tab to carriage return, the
space, and the seventeen blanks outside ASCII. -/
def isBlank (c : Char) : Bool :=
  let n := c.toNat
  (9 ≤ n && n ≤ 13) || n == 0x20 || n == 0x85 || n == 0xA0 || n == 0x1680 ||
    (0x2000 ≤ n && n ≤ 0x200A) || n == 0x2028 || n == 0x2029 || n == 0x202F || n == 0x205F ||
    n == 0x3000

/-- A text of blanks only; the empty one too. -/
def allBlank (s : List Char) : Bool := s.all isBlank

theorem ne_of_isBlank {c d : Char} (blank : isBlank c = true) (dark : isBlank d = false) :
    c ≠ d := by
  rintro rfl
  rw [blank] at dark
  cases dark

theorem not_mem_of_allBlank {s : List Char} {c : Char} (blank : allBlank s = true)
    (dark : isBlank c = false) : c ∉ s :=
  fun mem => ne_of_isBlank (List.all_eq_true.1 blank c mem) dark rfl

/-- The blanks a text begins with. -/
def blankHead (s : List Char) : List Char := s.takeWhile isBlank

/-- A text without the blanks it begins with. -/
def dropBlanks (s : List Char) : List Char := s.dropWhile isBlank

/-- A text without the blanks it ends with. -/
def dropBlanksEnd (s : List Char) : List Char := (s.reverse.dropWhile isBlank).reverse

/-- A text without the blanks at either end. -/
def trim (s : List Char) : List Char := dropBlanksEnd (dropBlanks s)

/-- The blanks a text ends with, when it holds anything else. -/
def blankTail (s : List Char) : List Char := ((dropBlanks s).reverse.takeWhile isBlank).reverse

/-- Head, core and tail are the text. -/
theorem head_core_tail (s : List Char) : blankHead s ++ trim s ++ blankTail s = s := by
  have h : trim s ++ blankTail s = dropBlanks s := by
    rw [trim, dropBlanksEnd, blankTail, ← List.reverse_append, List.takeWhile_append_dropWhile,
      List.reverse_reverse]
  rw [List.append_assoc, h]
  exact List.takeWhile_append_dropWhile

end StyleModule.Text
