import StyleModule.Import.Statement

/-!
# The parts of a stylesheet

A text without comments is made of import statements and of characters outside them, and put
together again its parts are the text. The statements among the parts are those that are found in
the text (`filterMap_statement?_parts`); leaving out those that lead to files of the project leaves
`withoutLocal`, the text that ought to remain when they have become imports.
-/

namespace StyleModule.Statement

/-- A statement, or a character outside all statements. -/
inductive Part where
  | outside (c : Char)
  | statement (s : Statement)

namespace Part

def text : Part → List Char
  | outside c => [c]
  | statement s => s.text

def statement? : Part → Option Statement
  | outside _ => none
  | statement s => some s

/-- Does the part become an import? -/
def isLocal : Part → Bool
  | outside _ => false
  | statement s => s.IsLocal

end Part

/-- The parts of a text, in order. -/
def parts : List Char → List Part
  | [] => []
  | c :: s =>
    if startsAt (c :: s) then
      .statement ⟨throughSemicolon (c :: s)⟩ :: parts (afterSemicolon (c :: s))
    else .outside c :: parts s
termination_by s => s.length
decreasing_by
  · exact afterSemicolon_shorter c s
  · exact Nat.lt_succ_self s.length

/-- The texts of parts, put together. -/
def textOf (parts : List Part) : List Char := parts.flatMap Part.text

/-- The text without the statements that lead to files of the project. -/
def withoutLocal (s : List Char) : List Char := textOf ((parts s).filter fun part => !part.isLocal)

theorem textOf_cons (part : Part) (parts : List Part) :
    textOf (part :: parts) = part.text ++ textOf parts := List.flatMap_cons

/-- The parts of a text are the text. -/
theorem textOf_parts (s : List Char) : textOf (parts s) = s := by
  fun_induction parts s with
  | case1 => rfl
  | case2 c s starts ih => rw [textOf_cons, ih, Part.text, throughSemicolon_append]
  | case3 c s _ ih => rw [textOf_cons, ih, Part.text, List.singleton_append]

/-- The statements among the parts are the statements of the text. -/
theorem filterMap_statement?_parts (s : List Char) :
    (parts s).filterMap Part.statement? = all s := by
  fun_induction parts s with
  | case1 => rw [all, List.filterMap_nil]
  | case2 c s starts ih => rw [all, if_pos starts, ← ih]; rfl
  | case3 c s starts ih => rw [all, if_neg starts, ← ih]; rfl

theorem throughSemicolon_ne_nil (c : Char) (s : List Char) : throughSemicolon (c :: s) ≠ [] := by
  intro empty
  have whole := throughSemicolon_append (c :: s)
  have shorter := afterSemicolon_shorter c s
  rw [empty, List.nil_append] at whole
  rw [whole] at shorter
  exact Nat.lt_irrefl _ shorter

theorem text_ne_nil_of_mem_parts {s : List Char} {part : Part} (h : part ∈ parts s) :
    part.text ≠ [] := by
  fun_induction parts s with
  | case1 => cases h
  | case2 c s _ ih =>
    rcases List.mem_cons.1 h with rfl | h
    · exact throughSemicolon_ne_nil c s
    · exact ih h
  | case3 c s _ ih =>
    rcases List.mem_cons.1 h with rfl | h
    · exact List.cons_ne_nil _ _
    · exact ih h

end StyleModule.Statement
