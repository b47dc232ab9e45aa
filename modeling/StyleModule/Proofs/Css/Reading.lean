import StyleModule.Css.Comment

/-!
# Reading a stylesheet piece by piece

The state of reading after a piece of text is known unless the piece ends in the middle of a comment
sign that goes on behind it, and what follows is read on from that state (`liveFrom_append`). So the
text that is in no comment can be told piece by piece.
-/

namespace StyleModule.Css

/-! ## One character -/

theorem liveFrom_nil (r : Reading) : liveFrom r [] = [] := by
  cases r <;> rfl

/-- A character of the text that begins no comment is seen. -/
theorem liveFrom_text {quote : Option Char} {escaped : Bool} {c : Char} {s : List Char}
    (noComment : ∀ t, quote = none → c = '/' → s = '*' :: t → False) :
    liveFrom (.text quote escaped) (c :: s) =
      c :: liveFrom (.text (quoteAfter quote escaped c) (c == '\\')) s :=
  liveFrom.eq_3 quote escaped c s noComment

/-- A character that does not end the comment is not seen. -/
theorem liveFrom_within {c : Char} {s : List Char}
    (within : ∀ t, c = '*' → s = '/' :: t → False) :
    liveFrom .comment (c :: s) = liveFrom .comment s :=
  liveFrom.eq_5 c s within

/-! ## Piece by piece -/

/-- The state of reading after a text with the character `next` behind it, unless the two make up a
comment sign. -/
def readingAfter? (next : Option Char) : Reading → List Char → Option Reading
  | r, [] => some r
  | .text none _, ['/'] => if next = some '*' then none else some (.text none false)
  | .text none _, '/' :: '*' :: s => readingAfter? next .comment s
  | .text quote escaped, c :: s =>
    readingAfter? next (.text (quoteAfter quote escaped c) (c == '\\')) s
  | .comment, ['*'] => if next = some '/' then none else some .comment
  | .comment, '*' :: '/' :: s => readingAfter? next (.text none false) s
  | .comment, _ :: s => readingAfter? next .comment s

theorem liveFrom_append {r r' : Reading} {a b : List Char}
    (h : readingAfter? b.head? r a = some r') :
    liveFrom r (a ++ b) = liveFrom r a ++ liveFrom r' b := by
  fun_induction readingAfter? b.head? r a with
  | case1 r =>
    cases h
    rw [liveFrom, List.nil_append, List.nil_append]
  | case2 => cases h
  | case3 escaped plain =>
    cases h
    have apart : ∀ t, (none : Option Char) = none → '/' = '/' → b = '*' :: t → False := by
      rintro t - - rfl
      exact plain rfl
    have stays : quoteAfter none escaped '/' = none := by cases escaped <;> rfl
    rw [List.singleton_append, liveFrom_text apart, liveFrom_text (by simp), liveFrom_nil,
      stays]
    rfl
  | case4 escaped s ih =>
    have opened := ih h
    rw [List.cons_append, List.cons_append, liveFrom, liveFrom]
    exact opened
  | case5 quote escaped c s notLast notComment ih =>
    have apart : ∀ t, quote = none → c = '/' → s ++ b = '*' :: t → False := by
      intro t outside slash split
      cases s with
      | nil => exact notLast outside slash rfl
      | cons d s =>
        obtain ⟨rfl, _⟩ := List.cons.inj split
        exact notComment s outside slash rfl
    rw [List.cons_append, liveFrom_text apart, liveFrom_text notComment, ih h, List.cons_append]
  | case6 => cases h
  | case7 within =>
    cases h
    have apart : ∀ t, '*' = '*' → b = '/' :: t → False := by
      rintro t - rfl
      exact within rfl
    rw [List.singleton_append, liveFrom_within apart, liveFrom_within (by simp), liveFrom_nil,
      List.nil_append]
  | case8 s ih =>
    have closed := ih h
    rw [List.cons_append, List.cons_append, liveFrom, liveFrom]
    exact closed
  | case9 c s notLast notClosed ih =>
    have within : ∀ t, c = '*' → s ++ b = '/' :: t → False := by
      intro t star split
      cases s with
      | nil => exact notLast star rfl
      | cons d s =>
        obtain ⟨rfl, _⟩ := List.cons.inj split
        exact notClosed s star rfl
    rw [List.cons_append, liveFrom_within within, liveFrom_within notClosed, ih h]

end StyleModule.Css
