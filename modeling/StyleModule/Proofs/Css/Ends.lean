import StyleModule.Proofs.Css.Items

/-!
# Items among lexemes

Where items and blocks end, told of the lexemes themselves, with what stands between them kept as
lexemes. `parensThrough` and `depthThrough` say of lexemes that no item ends in them, and that all
blocks opened in them are closed; behind such lexemes the reader finds what it is looking for, and
`Sheet.ofLexemes_block` and its neighbours say what it makes of it.

A comment ends an item, so there is none in lexemes in which none ends (`bareOf_eq_self`), but it
does not count for blocks (`depthThrough_bareOf`).
-/

namespace StyleModule.Css

/-! ## Lexemes without comments -/

def Lexeme.isComment : Lexeme → Bool
  | .comment _ => true
  | _ => false

/-- Lexemes without the comments among them. -/
def bareOf (lexemes : List Lexeme) : List Lexeme := lexemes.filter fun lexeme => !lexeme.isComment

/-- The comments among lexemes. -/
def commentsOf (lexemes : List Lexeme) : List Lexeme := lexemes.filter Lexeme.isComment

theorem bareOf_append (a b : List Lexeme) : bareOf (a ++ b) = bareOf a ++ bareOf b :=
  List.filter_append ..

theorem bareOf_char (c : Char) (lexemes : List Lexeme) :
    bareOf (.char c :: lexemes) = .char c :: bareOf lexemes := rfl

theorem bareOf_comment (c : List Char) (lexemes : List Lexeme) :
    bareOf (.comment c :: lexemes) = bareOf lexemes := rfl

theorem commentsOf_char (c : Char) (lexemes : List Lexeme) :
    commentsOf (.char c :: lexemes) = commentsOf lexemes := rfl

theorem commentsOf_append (a b : List Lexeme) :
    commentsOf (a ++ b) = commentsOf a ++ commentsOf b :=
  List.filter_append ..

theorem textOf_append (a b : List Lexeme) : textOf (a ++ b) = textOf a ++ textOf b :=
  List.flatMap_append

theorem textOf_char (c : Char) (lexemes : List Lexeme) :
    textOf (.char c :: lexemes) = c :: textOf lexemes := rfl

/-- The characters of a text, as lexemes. -/
def spell (s : List Char) : List Lexeme := s.map .char

theorem textOf_spell (s : List Char) : textOf (spell s) = s := by
  induction s with
  | nil => rfl
  | cons c s ih => rw [spell, List.map_cons, textOf_char, ← spell, ih]

theorem bareOf_spell (s : List Char) : bareOf (spell s) = spell s := by
  apply List.filter_eq_self.2
  intro lexeme mem
  obtain ⟨c, _, rfl⟩ := List.mem_map.1 mem
  rfl

theorem commentsOf_spell (s : List Char) : commentsOf (spell s) = [] := by
  apply List.filter_eq_nil_iff.2
  intro lexeme mem
  obtain ⟨c, _, rfl⟩ := List.mem_map.1 mem
  exact Bool.false_ne_true

/-! ## Lexemes in which nothing ends -/

/-- The round brackets that are open after lexemes, if no item ends in them. -/
def parensThrough : Nat → List Lexeme → Option Nat
  | parens, [] => some parens
  | parens, lexeme :: lexemes =>
    if endsItem parens lexeme then none else parensThrough (parensAfter parens lexeme) lexemes

/-- The blocks that are open after lexemes, if none is closed that was not opened. -/
def depthThrough : Nat → List Lexeme → Option Nat
  | depth, [] => some depth
  | depth, .char '{' :: lexemes => depthThrough (depth + 1) lexemes
  | 0, .char '}' :: _ => none
  | depth + 1, .char '}' :: lexemes => depthThrough depth lexemes
  | depth, _ :: lexemes => depthThrough depth lexemes

theorem nextEnd_append {parens after : Nat} {lexemes : List Lexeme}
    (quiet : parensThrough parens lexemes = some after) (rest : List Lexeme) :
    nextEnd parens (lexemes ++ rest) = (nextEnd after rest).map (behind (textOf lexemes)) := by
  induction lexemes generalizing parens with
  | nil =>
    cases quiet
    exact Option.map_id_apply.symm
  | cons lexeme lexemes ih =>
    unfold parensThrough at quiet
    split at quiet
    next => cases quiet
    next goes =>
      rw [List.cons_append, nextEnd_cons (by simpa using goes), ih quiet, Option.map_map,
        behind_comp]
      rfl

/-- Lexemes in which no item ends have no comment among them. -/
theorem bareOf_eq_self {parens after : Nat} {lexemes : List Lexeme}
    (quiet : parensThrough parens lexemes = some after) : bareOf lexemes = lexemes := by
  induction lexemes generalizing parens with
  | nil => rfl
  | cons lexeme lexemes ih =>
    unfold parensThrough at quiet
    split at quiet
    next => cases quiet
    next goes =>
      cases lexeme with
      | comment => exact absurd rfl goes
      | char c => rw [bareOf_char, ih quiet]
      | quoted q => exact congrArg (Lexeme.quoted q :: ·) (ih quiet)

theorem commentsOf_eq_nil {parens after : Nat} {lexemes : List Lexeme}
    (quiet : parensThrough parens lexemes = some after) : commentsOf lexemes = [] := by
  apply List.filter_eq_nil_iff.2
  intro lexeme mem
  rw [← bareOf_eq_self quiet] at mem
  simpa using (List.mem_filter.1 mem).2

theorem closeBlock_append_close {depth : Nat} {body : List Lexeme}
    (closed : depthThrough depth body = some 0) (rest : List Lexeme) :
    closeBlock depth (body ++ .char '}' :: rest) = some (body, rest) := by
  fun_induction depthThrough depth body with
  | case1 => cases closed; rfl
  | case2 depth body ih =>
    rw [List.cons_append, closeBlock, ih closed]
    rfl
  | case3 => cases closed
  | case4 depth body ih =>
    rw [List.cons_append, closeBlock, ih closed]
    rfl
  | case5 depth lexeme body notOpen notClose notClose' ih =>
    rw [List.cons_append, closeBlock.eq_5 _ _ _ notOpen notClose notClose', ih closed]
    rfl

/-- Comments do not count for blocks. -/
theorem depthThrough_bareOf (depth : Nat) (lexemes : List Lexeme) :
    depthThrough depth (bareOf lexemes) = depthThrough depth lexemes := by
  fun_induction depthThrough depth lexemes with
  | case1 => rfl
  | case2 depth lexemes ih => rw [bareOf_char, depthThrough, ih]
  | case3 => rfl
  | case4 depth lexemes ih => rw [bareOf_char, depthThrough, ih]
  | case5 depth lexeme lexemes notOpen notClose notClose' ih =>
    cases lexeme with
    | comment c => rw [bareOf_comment, ih]
    | char c => rw [bareOf_char, depthThrough.eq_5 _ _ _ notOpen notClose notClose', ih]
    | quoted q =>
      show depthThrough depth (.quoted q :: bareOf lexemes) = _
      rw [depthThrough.eq_5 _ _ _ notOpen notClose notClose', ih]

/-- The reader finds the end of an item where such lexemes end. -/
theorem nextEnd_stop {parens after : Nat} {lexemes : List Lexeme} {stop : Lexeme}
    (quiet : parensThrough parens lexemes = some after) (ends : endsItem after stop = true)
    (rest : List Lexeme) :
    nextEnd parens (lexemes ++ stop :: rest) = some (textOf lexemes, stop, rest) := by
  rw [nextEnd_append quiet, nextEnd, if_pos ends, Option.map_some, behind, List.append_nil]

/-- An item ends among lexemes, or none does. -/
theorem nextEnd_cases (parens : Nat) (lexemes : List Lexeme) :
    (∃ after, parensThrough parens lexemes = some after) ∨
      ∃ text after stop rest, lexemes = text ++ stop :: rest ∧
        parensThrough parens text = some after ∧ endsItem after stop = true := by
  induction lexemes generalizing parens with
  | nil => exact .inl ⟨parens, rfl⟩
  | cons lexeme lexemes ih =>
    by_cases ends : endsItem parens lexeme = true
    · exact .inr ⟨[], parens, lexeme, lexemes, rfl, rfl, ends⟩
    · have goes : ∀ text, parensThrough parens (lexeme :: text) =
          parensThrough (parensAfter parens lexeme) text := fun text => if_neg ends
      rcases ih (parensAfter parens lexeme) with
        ⟨after, quiet⟩ | ⟨text, after, stop, rest, rfl, quiet, stops⟩
      · exact .inl ⟨after, (goes _).trans quiet⟩
      · exact .inr ⟨lexeme :: text, after, stop, rest, rfl, (goes _).trans quiet, stops⟩

/-- A block is closed among lexemes, or it is not. -/
theorem closeBlock_cases (depth : Nat) (lexemes : List Lexeme) :
    closeBlock depth lexemes = none ∨
      ∃ body rest, lexemes = body ++ .char '}' :: rest ∧ depthThrough depth body = some 0 := by
  fun_induction closeBlock depth lexemes with
  | case1 => exact .inl rfl
  | case2 depth lexemes ih =>
    rcases ih with none | ⟨body, rest, rfl, closed⟩
    · exact .inl (by rw [none]; rfl)
    · exact .inr ⟨.char '{' :: body, rest, rfl, closed⟩
  | case3 lexemes => exact .inr ⟨[], lexemes, rfl, rfl⟩
  | case4 lexemes depth ih =>
    rcases ih with none | ⟨body, rest, rfl, closed⟩
    · exact .inl (by rw [none]; rfl)
    · exact .inr ⟨.char '}' :: body, rest, rfl, closed⟩
  | case5 depth lexeme lexemes notOpen notClose notClose' ih =>
    rcases ih with none | ⟨body, rest, rfl, closed⟩
    · exact .inl (by rw [none]; rfl)
    · refine .inr ⟨lexeme :: body, rest, rfl, ?_⟩
      rwa [depthThrough.eq_5 _ _ _ notOpen notClose notClose']

/-! ## Reading items -/

namespace Sheet

variable {text prelude body : List Lexeme} {parens : Nat}

theorem ofLexemes_tail (quiet : parensThrough 0 text = some parens) :
    ofLexemes text = .ok (.tail (textOf text)) := by
  have found := nextEnd_append quiet []
  rw [List.append_nil] at found
  rw [ofLexemes_eq, nextItem_none found]

theorem ofLexemes_comment (quiet : parensThrough 0 text = some parens) (c : List Char)
    (rest : List Lexeme) :
    ofLexemes (text ++ .comment c :: rest) =
      (ofLexemes rest).map (.comment (textOf text ++ c)) := by
  rw [ofLexemes_eq, nextItem_comment (nextEnd_stop quiet rfl rest)]
  rfl

theorem ofLexemes_statement (quiet : parensThrough 0 text = some 0) (rest : List Lexeme) :
    ofLexemes (text ++ .char ';' :: rest) =
      (ofLexemes rest).map (.statement (textOf text ++ [';'])) := by
  rw [ofLexemes_eq, nextItem_statement (nextEnd_stop quiet rfl rest)]
  rfl

theorem ofLexemes_stray (quiet : parensThrough 0 text = some 0) (rest : List Lexeme) :
    ofLexemes (text ++ .char '}' :: rest) =
      (ofLexemes rest).map (.stray (textOf text ++ ['}'])) := by
  rw [ofLexemes_eq, nextItem_stray (nextEnd_stop quiet rfl rest)]
  rfl

/-- A block is read as what its prelude says it belongs to. -/
theorem ofLexemes_block (quiet : parensThrough 0 prelude = some 0)
    (closed : depthThrough 0 body = some 0) (rest : List Lexeme) :
    ofLexemes (prelude ++ .char '{' :: (body ++ .char '}' :: rest)) =
      match BlockKind.of (Text.trim (textOf prelude)) with
      | .rule => (ofLexemes rest).map (.rule (textOf prelude) (textOf body))
      | .other => (ofLexemes rest).map (.block (textOf prelude) (textOf body))
      | .group => (ofLexemes body).bind fun inner =>
          (ofLexemes rest).map (.group (textOf prelude) inner) := by
  rw [ofLexemes_eq, nextItem_block (nextEnd_stop quiet rfl _) (closeBlock_append_close closed rest)]
  rfl

theorem ofLexemes_unclosed (quiet : parensThrough 0 prelude = some 0)
    (unclosed : closeBlock 0 body = none) :
    ofLexemes (prelude ++ .char '{' :: body) = .error (textOf prelude) := by
  rw [ofLexemes_eq, nextItem_unclosed (nextEnd_stop quiet rfl body) unclosed]

end Sheet

end StyleModule.Css
