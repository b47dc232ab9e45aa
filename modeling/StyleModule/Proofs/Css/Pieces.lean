import StyleModule.Css.Lexeme

/-!
# The pieces of a stylesheet

What the lexemes of a stylesheet are, told of the text alone. A string runs from a quote to the next
quote of its kind that no backslash takes along; a comment runs to the first end mark behind its
opening. Either may be left open, by the end of the text. All else is single characters.

`pieces_induction` says that every text is made of such pieces, and the lemmas before it say which
lexeme the reader makes of each, so no later proof looks into the reader.
-/

namespace StyleModule.Css

/-- The sign that opens a comment. -/
def commentStart : List Char := ['/', '*']

/-- The sign that ends a comment. -/
def commentEnd : List Char := ['*', '/']

/-- What may stand between quotes: a backslash takes the character behind it along, and no other
character is the quote. -/
inductive QuotedText (quote : Char) : List Char → Prop
  | nil : QuotedText quote []
  | escape {s : List Char} (c : Char) (rest : QuotedText quote s) :
      QuotedText quote ('\\' :: c :: s)
  | char {c : Char} {s : List Char} (other : c ≠ quote) (plain : c ≠ '\\')
      (rest : QuotedText quote s) : QuotedText quote (c :: s)

/-- A string with both its quotes. -/
inductive IsString : List Char → Prop
  | closed {quote : Char} {inner : List Char} (kind : quote = '"' ∨ quote = '\'')
      (text : QuotedText quote inner) : IsString (quote :: (inner ++ [quote]))

/-- A string that the end of the text leaves open, perhaps behind a backslash. -/
inductive IsOpenString : List Char → Prop
  | cut {quote : Char} {inner : List Char} (kind : quote = '"' ∨ quote = '\'')
      (text : QuotedText quote inner) : IsOpenString (quote :: inner)
  | escaping {quote : Char} {inner : List Char} (kind : quote = '"' ∨ quote = '\'')
      (text : QuotedText quote inner) : IsOpenString (quote :: (inner ++ ['\\']))

/-- A comment with its end mark, which is the first one behind the opening. -/
inductive IsComment : List Char → Prop
  | closed {inner : List Char} (first : ¬ commentEnd <:+: inner) :
      IsComment ('/' :: '*' :: (inner ++ commentEnd))

/-- A comment that the end of the text leaves open. -/
inductive IsOpenComment : List Char → Prop
  | cut {inner : List Char} (none : ¬ commentEnd <:+: inner) : IsOpenComment ('/' :: '*' :: inner)

/-! ## Strings -/

theorem backslash_ne_of_kind {quote : Char} (kind : quote = '"' ∨ quote = '\'') : quote ≠ '\\' := by
  rcases kind with rfl | rfl <;> decide

theorem lexFrom_quoted_char {quote c : Char} (plain : c ≠ '\\') (s : List Char) :
    lexFrom (.quoted quote) (c :: s) =
      if c = quote then ([c], lexemes s)
      else (c :: (lexFrom (.quoted quote) s).1, (lexFrom (.quoted quote) s).2) :=
  lexFrom.eq_5 quote c s fun _ _ escape _ => plain escape

theorem QuotedText.lexFrom {quote : Char} {inner : List Char} (text : QuotedText quote inner)
    (plain : quote ≠ '\\') (s : List Char) :
    Css.lexFrom (.quoted quote) (inner ++ quote :: s) = (inner ++ [quote], lexemes s) := by
  induction text with
  | nil => rw [List.nil_append, lexFrom_quoted_char plain, if_pos rfl, List.nil_append]
  | escape c _ ih => rw [List.cons_append, List.cons_append, Css.lexFrom, ih]; rfl
  | char other simple _ ih =>
    rw [List.cons_append, lexFrom_quoted_char simple, if_neg other, ih]
    rfl

theorem QuotedText.lexFrom_cut {quote : Char} {inner tail : List Char}
    (text : QuotedText quote inner) (last : tail = [] ∨ tail = ['\\']) (plain : quote ≠ '\\') :
    Css.lexFrom (.quoted quote) (inner ++ tail) = (inner ++ tail, []) := by
  induction text with
  | nil =>
    rcases last with rfl | rfl
    · rfl
    · rw [List.nil_append, lexFrom.eq_5 _ _ _ (by simp), if_neg plain.symm]
      rfl
  | escape c _ ih => rw [List.cons_append, List.cons_append, Css.lexFrom, ih]
  | char other simple _ ih =>
    rw [List.cons_append, lexFrom_quoted_char simple, if_neg other, ih]

/-- Behind a quote there is a string that is closed, or one that is not. -/
theorem quoted_cases (quote : Char) : ∀ s : List Char,
    (∃ inner rest, QuotedText quote inner ∧ s = inner ++ quote :: rest) ∨
      ∃ inner tail, QuotedText quote inner ∧ (tail = [] ∨ tail = ['\\']) ∧ s = inner ++ tail
  | [] => .inr ⟨[], [], .nil, .inl rfl, rfl⟩
  | [c] => by
    by_cases closes : c = quote
    · exact .inl ⟨[], [], .nil, by rw [closes]; rfl⟩
    · by_cases escape : c = '\\'
      · exact .inr ⟨[], ['\\'], .nil, .inr rfl, by rw [escape]; rfl⟩
      · exact .inr ⟨[c], [], .char closes escape .nil, .inl rfl, rfl⟩
  | c :: d :: s => by
    by_cases escape : c = '\\'
    · subst escape
      rcases quoted_cases quote s with ⟨inner, rest, text, rfl⟩ | ⟨inner, tail, text, last, rfl⟩
      · exact .inl ⟨_, rest, .escape d text, rfl⟩
      · exact .inr ⟨_, tail, .escape d text, last, rfl⟩
    · by_cases closes : c = quote
      · exact .inl ⟨[], d :: s, .nil, by rw [closes]; rfl⟩
      · rcases quoted_cases quote (d :: s) with
          ⟨inner, rest, text, split⟩ | ⟨inner, tail, text, last, split⟩
        · exact .inl ⟨c :: inner, rest, .char closes escape text, by rw [split]; rfl⟩
        · exact .inr ⟨c :: inner, tail, .char closes escape text, last, by rw [split]; rfl⟩

/-! ## Comments -/

theorem lexFrom_comment_char {c : Char} {s : List Char} (within : ¬ commentEnd <+: c :: s) :
    lexFrom .comment (c :: s) = (c :: (lexFrom .comment s).1, (lexFrom .comment s).2) := by
  refine lexFrom.eq_7 c s ?_
  rintro t rfl rfl
  exact within ⟨t, rfl⟩

theorem lexFrom_comment {inner : List Char} (first : ¬ commentEnd <:+: inner) (s : List Char) :
    lexFrom .comment (inner ++ (commentEnd ++ s)) = (inner ++ commentEnd, lexemes s) := by
  induction inner with
  | nil => rfl
  | cons c inner ih =>
    rw [List.infix_cons_iff, not_or] at first
    have within : ¬ commentEnd <+: c :: (inner ++ (commentEnd ++ s)) := by
      rintro ⟨t, split⟩
      obtain ⟨rfl, follows⟩ := List.cons.inj split
      cases inner with
      | nil => cases follows
      | cons d inner =>
        obtain ⟨rfl, _⟩ := List.cons.inj follows
        exact first.1 ⟨inner, rfl⟩
    rw [List.cons_append, lexFrom_comment_char within, ih first.2]
    rfl

theorem lexFrom_comment_cut {inner : List Char} (none : ¬ commentEnd <:+: inner) :
    lexFrom .comment inner = (inner, []) := by
  induction inner with
  | nil => rfl
  | cons c inner ih =>
    rw [List.infix_cons_iff, not_or] at none
    rw [lexFrom_comment_char none.1, ih none.2]

/-- Behind the opening of a comment there is its first end mark, or none. -/
theorem comment_cases (s : List Char) :
    (∃ inner rest, ¬ commentEnd <:+: inner ∧ s = inner ++ (commentEnd ++ rest)) ∨
      ¬ commentEnd <:+: s := by
  induction s with
  | nil => exact .inr (by decide)
  | cons c s ih =>
    by_cases ends : commentEnd <+: c :: s
    · obtain ⟨rest, split⟩ := ends
      exact .inl ⟨[], rest, by decide, split.symm⟩
    · rcases ih with ⟨inner, rest, first, rfl⟩ | none
      · refine .inl ⟨c :: inner, rest, ?_, rfl⟩
        rw [List.infix_cons_iff, not_or]
        refine ⟨fun early => ends ?_, first⟩
        exact early.trans (List.prefix_append (c :: inner) (commentEnd ++ rest))
      · refine .inr ?_
        rw [List.infix_cons_iff, not_or]
        exact ⟨ends, none⟩

/-! ## The lexeme of each piece -/

theorem lexemes_nil : lexemes [] = [] := rfl

/-- A character that opens no comment begins a string or is a lexeme of its own. -/
theorem lexFrom_sheet_char {c : Char} {s : List Char} (apart : ¬ commentStart <+: c :: s) :
    lexFrom .sheet (c :: s) =
      if c = '"' ∨ c = '\'' then
        ([], .quoted (c :: (lexFrom (.quoted c) s).1) :: (lexFrom (.quoted c) s).2)
      else ([], .char c :: lexemes s) := by
  refine lexFrom.eq_3 c s ?_
  rintro t rfl rfl
  exact apart ⟨t, rfl⟩

theorem lexemes_char {c : Char} {s : List Char} (plain : ¬ (c = '"' ∨ c = '\''))
    (apart : ¬ commentStart <+: c :: s) : lexemes (c :: s) = .char c :: lexemes s := by
  rw [lexemes, lexFrom_sheet_char apart, if_neg plain]

theorem not_commentStart_of_quote {quote : Char} (kind : quote = '"' ∨ quote = '\'')
    (s : List Char) : ¬ commentStart <+: quote :: s := by
  rintro ⟨t, split⟩
  obtain ⟨rfl, _⟩ := List.cons.inj split
  revert kind
  decide

theorem lexemes_string {q : List Char} (closed : IsString q) (s : List Char) :
    lexemes (q ++ s) = .quoted q :: lexemes s := by
  obtain ⟨kind, text⟩ := closed
  rw [List.cons_append, List.append_assoc, List.singleton_append, lexemes,
    lexFrom_sheet_char (not_commentStart_of_quote kind _), if_pos kind,
    text.lexFrom (backslash_ne_of_kind kind)]

theorem lexemes_openString {q : List Char} (cut : IsOpenString q) : lexemes q = [.quoted q] := by
  cases cut with
  | cut kind text =>
    have read := text.lexFrom_cut (.inl rfl) (backslash_ne_of_kind kind)
    rw [List.append_nil] at read
    rw [lexemes, lexFrom_sheet_char (not_commentStart_of_quote kind _), if_pos kind, read]
  | escaping kind text =>
    rw [lexemes, lexFrom_sheet_char (not_commentStart_of_quote kind _), if_pos kind,
      text.lexFrom_cut (.inr rfl) (backslash_ne_of_kind kind)]

theorem lexemes_comment {c : List Char} (closed : IsComment c) (s : List Char) :
    lexemes (c ++ s) = .comment c :: lexemes s := by
  obtain ⟨first⟩ := closed
  rw [List.cons_append, List.cons_append, List.append_assoc, lexemes, lexFrom,
    lexFrom_comment first]

theorem lexemes_openComment {c : List Char} (cut : IsOpenComment c) :
    lexemes c = [.comment c] := by
  obtain ⟨none⟩ := cut
  rw [lexemes, lexFrom, lexFrom_comment_cut none]

/-! ## All pieces -/

/-- What holds of the empty text, and of a text where it holds of what is behind its first piece,
holds of every text. -/
theorem pieces_induction {motive : List Char → Prop} (nil : motive [])
    (comment : ∀ {c s}, IsComment c → motive s → motive (c ++ s))
    (openComment : ∀ {c}, IsOpenComment c → motive c)
    (string : ∀ {q s}, IsString q → motive s → motive (q ++ s))
    (openString : ∀ {q}, IsOpenString q → motive q)
    (char : ∀ {c s}, ¬ (c = '"' ∨ c = '\'') → ¬ commentStart <+: c :: s → motive s →
      motive (c :: s))
    (s : List Char) : motive s := by
  induction length : s.length using Nat.strongRecOn generalizing s with
  | _ n ih =>
    have shorter : ∀ t : List Char, t.length < s.length → motive t := by
      intro t lt
      exact ih t.length (length ▸ lt) t rfl
    cases s with
    | nil => exact nil
    | cons c s =>
      by_cases opens : commentStart <+: c :: s
      · obtain ⟨t, split⟩ := opens
        rw [← split] at shorter ⊢
        rcases comment_cases t with ⟨inner, rest, first, rfl⟩ | none
        · have whole : commentStart ++ (inner ++ (commentEnd ++ rest)) =
              '/' :: '*' :: (inner ++ commentEnd) ++ rest := by
            simp [commentStart]
          rw [whole] at shorter ⊢
          exact comment (.closed first) (shorter rest (by simp; omega))
        · exact openComment (.cut none)
      · by_cases kind : c = '"' ∨ c = '\''
        · rcases quoted_cases c s with ⟨inner, rest, text, rfl⟩ | ⟨inner, tail, text, last, rfl⟩
          · have whole : c :: (inner ++ c :: rest) = c :: (inner ++ [c]) ++ rest := by simp
            rw [whole] at shorter ⊢
            exact string (.closed kind text) (shorter rest (by simp; omega))
          · rcases last with rfl | rfl
            · rw [List.append_nil]
              exact openString (.cut kind text)
            · exact openString (.escaping kind text)
        · exact char kind opens (shorter s (Nat.lt_succ_self _))

end StyleModule.Css
