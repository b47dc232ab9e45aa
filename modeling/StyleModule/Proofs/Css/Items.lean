import StyleModule.Css.Sheet
import StyleModule.Proofs.Css.Pieces

/-!
# The first item of a stylesheet

What a stylesheet begins with, told of the text alone. A text is `Quiet` where no item ends in it,
and `Inside` a block where the block does not end in it. `itemView` says that every text is quiet to
its end, or is quiet up to a comment, a semicolon or a brace; and that behind an opening brace there
is a block, or none that is closed. The lemmas after it say what is read of each.
-/

namespace StyleModule.Css

/-! ## Texts in which nothing ends -/

/-- A text in which no item ends, with so many round brackets open before it and after it. -/
inductive Quiet : Nat → List Char → Nat → Prop
  | nil {n : Nat} : Quiet n [] n
  | string {n m : Nat} {q s : List Char} (closed : IsString q) (rest : Quiet n s m) :
      Quiet n (q ++ s) m
  | char {n m : Nat} {c : Char} {s : List Char} (plain : ¬ (c = '"' ∨ c = '\''))
      (apart : ¬ commentStart <+: c :: s) (within : n = 0 → c ≠ '{' ∧ c ≠ '}' ∧ c ≠ ';')
      (rest : Quiet (parensAfter n (.char c)) s m) : Quiet n (c :: s) m

/-- A text in which no item ends and which itself ends, perhaps in the middle of a string. -/
inductive Tail (n : Nat) : List Char → Prop
  | cut {before string : List Char} {m : Nat} (quiet : Quiet n before m)
      (last : string = [] ∨ IsOpenString string) : Tail n (before ++ string)

/-- A text in which so many blocks are closed that were open before it, and every block that is
opened. Braces count outside strings and comments. -/
inductive Inside : Nat → List Char → Prop
  | nil : Inside 0 []
  | opens {depth : Nat} {s : List Char} (rest : Inside (depth + 1) s) : Inside depth ('{' :: s)
  | closes {depth : Nat} {s : List Char} (rest : Inside depth s) : Inside (depth + 1) ('}' :: s)
  | string {depth : Nat} {q s : List Char} (closed : IsString q) (rest : Inside depth s) :
      Inside depth (q ++ s)
  | comment {depth : Nat} {c s : List Char} (closed : IsComment c) (rest : Inside depth s) :
      Inside depth (c ++ s)
  | char {depth : Nat} {c : Char} {s : List Char} (plain : ¬ (c = '"' ∨ c = '\''))
      (apart : ¬ commentStart <+: c :: s) (other : c ≠ '{' ∧ c ≠ '}') (rest : Inside depth s) :
      Inside depth (c :: s)

/-- A character that opens no comment opens none with another text behind it either, unless that
begins with a star. -/
theorem apart_append {c : Char} {a s : List Char} (apart : ¬ commentStart <+: c :: a)
    (noStar : s.head? ≠ some '*') : ¬ commentStart <+: c :: (a ++ s) := by
  rintro ⟨t, split⟩
  obtain ⟨rfl, follows⟩ := List.cons.inj split
  cases a with
  | nil =>
    rw [List.nil_append] at follows
    rw [← follows] at noStar
    exact noStar rfl
  | cons d a =>
    obtain ⟨rfl, _⟩ := List.cons.inj follows
    exact apart ⟨a, rfl⟩

/-- A character that opens no comment opens none where less is behind it. -/
theorem apart_of_append {c : Char} {a s : List Char} (apart : ¬ commentStart <+: c :: (a ++ s)) :
    ¬ commentStart <+: c :: a :=
  fun opens => apart (opens.trans (List.prefix_append (c :: a) s))

/-! ## Up to the end of the first item -/

/-- A lexeme that ends an item, with so many round brackets open, and what is behind it. -/
inductive Stop : Nat → Lexeme → List Char → Prop
  | char {c : Char} (s : List Char) (stops : c = '{' ∨ c = '}' ∨ c = ';') : Stop 0 (.char c) s
  | comment {n : Nat} {c : List Char} (s : List Char) (closed : IsComment c) :
      Stop n (.comment c) s
  | openComment {n : Nat} {c : List Char} (cut : IsOpenComment c) : Stop n (.comment c) []

/-- A finding, told from the text in front of where it was looked for. -/
def behind (a : List Char) (found : List Char × Lexeme × List Lexeme) :
    List Char × Lexeme × List Lexeme := (a ++ found.1, found.2)

theorem behind_comp (a b : List Char) : behind a ∘ behind b = behind (a ++ b) := by
  funext found
  simp only [Function.comp_apply, behind, List.append_assoc]

theorem nextEnd_cons {parens : Nat} {lexeme : Lexeme} (goes : endsItem parens lexeme = false)
    (lexemes : List Lexeme) : nextEnd parens (lexeme :: lexemes) =
      (nextEnd (parensAfter parens lexeme) lexemes).map (behind lexeme.text) := by
  rw [nextEnd, goes]
  rfl

theorem parensAfter_quoted (n : Nat) (q : List Char) : parensAfter n (.quoted q) = n := rfl

theorem endsItem_char {n : Nat} {c : Char} :
    endsItem n (.char c) = true ↔ n = 0 ∧ (c = '{' ∨ c = '}' ∨ c = ';') := by
  simp [endsItem, or_assoc]

theorem endsItem_char_eq_false {n : Nat} {c : Char}
    (within : n = 0 → c ≠ '{' ∧ c ≠ '}' ∧ c ≠ ';') : endsItem n (.char c) = false := by
  rw [← Bool.not_eq_true, endsItem_char]
  rintro ⟨none, rfl | rfl | rfl⟩
  · exact (within none).1 rfl
  · exact (within none).2.1 rfl
  · exact (within none).2.2 rfl

/-- What the reader finds behind a quiet text it finds with that text in front. -/
theorem Quiet.nextEnd {n m : Nat} {a s : List Char} (quiet : Quiet n a m)
    (noStar : s.head? ≠ some '*') :
    Css.nextEnd n (lexemes (a ++ s)) = (Css.nextEnd m (lexemes s)).map (behind a) := by
  induction quiet with
  | nil => exact Option.map_id_apply.symm
  | string closed _ ih =>
    rw [List.append_assoc, lexemes_string closed, nextEnd_cons rfl, parensAfter_quoted, ih,
      Option.map_map, Lexeme.text, behind_comp]
  | char plain apart within _ ih =>
    rw [List.cons_append, lexemes_char plain (apart_append apart noStar),
      nextEnd_cons (endsItem_char_eq_false within), ih, Option.map_map, Lexeme.text, behind_comp]
    rfl

theorem Stop.noStar {n : Nat} {stop : Lexeme} {s : List Char} (stops : Stop n stop s) :
    (stop.text ++ s).head? ≠ some '*' := by
  cases stops with
  | char s stops => rcases stops with rfl | rfl | rfl <;> simp [Lexeme.text]
  | comment s closed => obtain ⟨_⟩ := closed; simp [Lexeme.text]
  | openComment cut => obtain ⟨_⟩ := cut; simp [Lexeme.text]

theorem not_commentStart_of_stop {c : Char} (stops : c = '{' ∨ c = '}' ∨ c = ';') (s : List Char) :
    ¬ (c = '"' ∨ c = '\'') ∧ ¬ commentStart <+: c :: s := by
  constructor
  · rcases stops with rfl | rfl | rfl <;> decide
  · rintro ⟨t, split⟩
    obtain ⟨rfl, _⟩ := List.cons.inj split
    revert stops
    decide

theorem lexemes_stop {c : Char} (stops : c = '{' ∨ c = '}' ∨ c = ';') (s : List Char) :
    lexemes (c :: s) = .char c :: lexemes s :=
  lexemes_char (not_commentStart_of_stop stops s).1 (not_commentStart_of_stop stops s).2

theorem Stop.nextEnd {n : Nat} {stop : Lexeme} {s : List Char} (stops : Stop n stop s) :
    Css.nextEnd n (lexemes (stop.text ++ s)) = some ([], stop, lexemes s) := by
  cases stops with
  | char s stops =>
    rw [Lexeme.text, List.singleton_append, lexemes_stop stops, Css.nextEnd,
      if_pos (endsItem_char.2 ⟨rfl, stops⟩)]
  | comment s closed => rw [Lexeme.text, lexemes_comment closed]; rfl
  | openComment cut => rw [Lexeme.text, List.append_nil, lexemes_openComment cut]; rfl

/-- The reader finds the end of an item where a quiet text ends. -/
theorem Quiet.nextEnd_stop {n m : Nat} {before s : List Char} {stop : Lexeme}
    (quiet : Quiet n before m) (stops : Stop m stop s) :
    Css.nextEnd n (lexemes (before ++ (stop.text ++ s))) = some (before, stop, lexemes s) := by
  rw [quiet.nextEnd stops.noStar, stops.nextEnd, Option.map_some, behind, List.append_nil]

/-- The reader finds no end where there is none. -/
theorem Tail.nextEnd {n : Nat} {s : List Char} (tail : Tail n s) :
    Css.nextEnd n (lexemes s) = none := by
  obtain ⟨quiet, rfl | cut⟩ := tail
  · rw [quiet.nextEnd (by simp)]
    rfl
  · have noStar : ∀ {q : List Char}, IsOpenString q → q.head? ≠ some '*' := by
      rintro q (⟨kind, _⟩ | ⟨kind, _⟩) <;> rcases kind with rfl | rfl <;> simp
    rw [quiet.nextEnd (noStar cut), lexemes_openString cut]
    rfl

/-- Every text is quiet to its end, or up to where an item ends. -/
theorem quiet_cases (n : Nat) (s : List Char) :
    Tail n s ∨ ∃ before stop rest m, Quiet n before m ∧ Stop m stop rest ∧
      s = before ++ (stop.text ++ rest) := by
  induction s using pieces_induction generalizing n with
  | nil => exact .inl (.cut .nil (.inl rfl))
  | @comment c s closed _ =>
    exact .inr ⟨[], .comment c, s, n, .nil, .comment s closed, rfl⟩
  | @openComment c cut =>
    exact .inr ⟨[], .comment c, [], n, .nil, .openComment cut, (List.append_nil c).symm⟩
  | string closed ih =>
    rcases ih n with ⟨quiet, last⟩ | ⟨before, stop, rest, m, quiet, stops, rfl⟩
    · rw [← List.append_assoc]
      exact .inl (.cut (.string closed quiet) last)
    · exact .inr ⟨_, stop, rest, m, .string closed quiet, stops, (List.append_assoc ..).symm⟩
  | openString cut => exact .inl (.cut .nil (.inr cut))
  | @char c s plain apart ih =>
    by_cases ends : endsItem n (.char c) = true
    · obtain ⟨rfl, stops⟩ := endsItem_char.1 ends
      exact .inr ⟨[], .char c, s, 0, .nil, .char s stops, rfl⟩
    · have within : n = 0 → c ≠ '{' ∧ c ≠ '}' ∧ c ≠ ';' := by
        intro none
        rw [endsItem_char, not_and, not_or, not_or] at ends
        exact ends none
      rcases ih (parensAfter n (.char c)) with
        ⟨quiet, last⟩ | ⟨before, stop, rest, m, quiet, stops, rfl⟩
      · rw [← List.cons_append]
        exact .inl (.cut (.char plain (apart_of_append apart) within quiet) last)
      · exact .inr ⟨_, stop, rest, m, .char plain (apart_of_append apart) within quiet, stops, rfl⟩

/-! ## To the end of a block -/

theorem closeBlock_other {lexeme : Lexeme} (notOpen : lexeme ≠ .char '{')
    (notClose : lexeme ≠ .char '}') (depth : Nat) (lexemes : List Lexeme) :
    closeBlock depth (lexeme :: lexemes) =
      (closeBlock depth lexemes).map fun (body, rest) => (lexeme :: body, rest) :=
  closeBlock.eq_5 depth lexeme lexemes notOpen (fun _ => notClose) fun _ _ => notClose

theorem closeBlock_quoted (q : List Char) (depth : Nat) (lexemes : List Lexeme) :
    closeBlock depth (.quoted q :: lexemes) =
      (closeBlock depth lexemes).map fun (body, rest) => (.quoted q :: body, rest) :=
  closeBlock_other (by simp) (by simp) depth lexemes

theorem closeBlock_comment (c : List Char) (depth : Nat) (lexemes : List Lexeme) :
    closeBlock depth (.comment c :: lexemes) =
      (closeBlock depth lexemes).map fun (body, rest) => (.comment c :: body, rest) :=
  closeBlock_other (by simp) (by simp) depth lexemes

theorem closeBlock_char {c : Char} (other : c ≠ '{' ∧ c ≠ '}') (depth : Nat)
    (lexemes : List Lexeme) : closeBlock depth (.char c :: lexemes) =
      (closeBlock depth lexemes).map fun (body, rest) => (.char c :: body, rest) :=
  closeBlock_other (fun h => other.1 (Lexeme.char.inj h)) (fun h => other.2 (Lexeme.char.inj h))
    depth lexemes

/-- The reader finds the brace that closes a block where the inside of the block ends. -/
theorem Inside.closeBlock {depth : Nat} {b : List Char} (inside : Inside depth b) (s : List Char) :
    Css.closeBlock depth (lexemes (b ++ '}' :: s)) = some (lexemes b, lexemes s) := by
  induction inside with
  | nil => rw [List.nil_append, lexemes_stop (by simp)]; rfl
  | opens _ ih =>
    rw [List.cons_append, lexemes_stop (by simp), lexemes_stop (by simp), Css.closeBlock, ih]
    rfl
  | closes _ ih =>
    rw [List.cons_append, lexemes_stop (by simp), lexemes_stop (by simp), Css.closeBlock, ih]
    rfl
  | string closed _ ih =>
    rw [List.append_assoc, lexemes_string closed, lexemes_string closed,
      closeBlock_quoted, ih]
    rfl
  | comment closed _ ih =>
    rw [List.append_assoc, lexemes_comment closed, lexemes_comment closed,
      closeBlock_comment, ih]
    rfl
  | char plain apart other _ ih =>
    rw [List.cons_append, lexemes_char plain (apart_append apart (by simp)),
      lexemes_char plain apart, closeBlock_char other, ih]
    rfl

/-- No block that is open in front of the text is closed in it. -/
def Unclosed (s : List Char) : Prop := ¬ ∃ body rest, Inside 0 body ∧ s = body ++ '}' :: rest

/-- A block is closed in a text, or the reader finds that it is not. -/
theorem block_cases (depth : Nat) (s : List Char) :
    (∃ b rest, Inside depth b ∧ s = b ++ '}' :: rest) ∨ closeBlock depth (lexemes s) = none := by
  induction s using pieces_induction generalizing depth with
  | nil => exact .inr rfl
  | comment closed ih =>
    rcases ih depth with ⟨b, rest, inside, rfl⟩ | none
    · exact .inl ⟨_, rest, .comment closed inside, (List.append_assoc ..).symm⟩
    · refine .inr ?_
      rw [lexemes_comment closed, closeBlock_comment, none]
      rfl
  | openComment cut =>
    refine .inr ?_
    rw [lexemes_openComment cut, closeBlock_comment]
    rfl
  | string closed ih =>
    rcases ih depth with ⟨b, rest, inside, rfl⟩ | none
    · exact .inl ⟨_, rest, .string closed inside, (List.append_assoc ..).symm⟩
    · refine .inr ?_
      rw [lexemes_string closed, closeBlock_quoted, none]
      rfl
  | openString cut =>
    refine .inr ?_
    rw [lexemes_openString cut, closeBlock_quoted]
    rfl
  | @char c s plain apart ih =>
    rw [lexemes_char plain apart]
    by_cases opens : c = '{'
    · subst opens
      rcases ih (depth + 1) with ⟨b, rest, inside, rfl⟩ | none
      · exact .inl ⟨_, rest, .opens inside, rfl⟩
      · refine .inr ?_
        rw [closeBlock, none]
        rfl
    · by_cases closes : c = '}'
      · subst closes
        cases depth with
        | zero => exact .inl ⟨[], s, .nil, rfl⟩
        | succ depth =>
          rcases ih depth with ⟨b, rest, inside, rfl⟩ | none
          · exact .inl ⟨_, rest, .closes inside, rfl⟩
          · refine .inr ?_
            rw [closeBlock, none]
            rfl
      · rcases ih depth with ⟨b, rest, inside, rfl⟩ | none
        · exact .inl ⟨_, rest, .char plain (apart_of_append apart) ⟨opens, closes⟩ inside, rfl⟩
        · refine .inr ?_
          rw [closeBlock_char ⟨opens, closes⟩, none]
          rfl

/-! ## Items -/

/-- What a text begins with: nothing that ends, an item that ends in it, or a block that does
not. -/
inductive ItemView : List Char → Prop
  | tail {s : List Char} (tail : Tail 0 s) : ItemView s
  | comment {before c : List Char} {n : Nat} (rest : List Char) (quiet : Quiet 0 before n)
      (closed : IsComment c) : ItemView (before ++ (c ++ rest))
  | openComment {before c : List Char} {n : Nat} (quiet : Quiet 0 before n)
      (cut : IsOpenComment c) : ItemView (before ++ c)
  | statement {before : List Char} (rest : List Char) (quiet : Quiet 0 before 0) :
      ItemView (before ++ ';' :: rest)
  | stray {before : List Char} (rest : List Char) (quiet : Quiet 0 before 0) :
      ItemView (before ++ '}' :: rest)
  | block {prelude body : List Char} (rest : List Char) (quiet : Quiet 0 prelude 0)
      (inside : Inside 0 body) : ItemView (prelude ++ '{' :: (body ++ '}' :: rest))
  | unclosed {prelude s : List Char} (quiet : Quiet 0 prelude 0)
      (unclosed : Unclosed s) : ItemView (prelude ++ '{' :: s)

theorem itemView (s : List Char) : ItemView s := by
  rcases quiet_cases 0 s with tail | ⟨before, stop, rest, m, quiet, stops, rfl⟩
  · exact .tail tail
  · cases stops with
    | char rest stops =>
      rcases stops with rfl | rfl | rfl
      · by_cases closed : ∃ body after, Inside 0 body ∧ rest = body ++ '}' :: after
        · obtain ⟨body, after, inside, rfl⟩ := closed
          exact .block after quiet inside
        · exact .unclosed quiet closed
      · exact .stray rest quiet
      · exact .statement rest quiet
    | comment rest closed => exact .comment rest quiet closed
    | openComment cut =>
      rw [List.append_nil]
      exact .openComment quiet cut

/-! ## Reading -/

section Items

variable {lexemes rest body : List Lexeme} {before c : List Char}

theorem nextItem_none (none : nextEnd 0 lexemes = none) : nextItem lexemes = .ok .none := by
  rw [nextItem, none]

theorem nextItem_comment (found : nextEnd 0 lexemes = some (before, .comment c, rest)) :
    nextItem lexemes = .ok (some (.comment (before ++ c), rest)) := by
  rw [nextItem, found]

theorem nextItem_statement (found : nextEnd 0 lexemes = some (before, .char ';', rest)) :
    nextItem lexemes = .ok (some (.statement (before ++ [';']), rest)) := by
  rw [nextItem, found]
  rfl

theorem nextItem_stray (found : nextEnd 0 lexemes = some (before, .char '}', rest)) :
    nextItem lexemes = .ok (some (.stray (before ++ ['}']), rest)) := by
  rw [nextItem, found]
  rfl

theorem nextItem_block {after : List Lexeme}
    (found : nextEnd 0 lexemes = some (before, .char '{', rest))
    (closed : closeBlock 0 rest = some (body, after)) :
    nextItem lexemes = .ok (some (.block before body, after)) := by
  simp only [nextItem, found, closed]

theorem nextItem_unclosed (found : nextEnd 0 lexemes = some (before, .char '{', rest))
    (unclosed : closeBlock 0 rest = none) : nextItem lexemes = .error before := by
  simp only [nextItem, found, unclosed]

end Items

namespace Sheet

/-- What is read where an item was found. -/
def behindItem (rest : List Lexeme) : Item → Except (List Char) Sheet
  | .comment text => (ofLexemes rest).map (.comment text)
  | .statement text => (ofLexemes rest).map (.statement text)
  | .stray text => (ofLexemes rest).map (.stray text)
  | .block prelude body =>
    match BlockKind.of (Text.trim prelude) with
    | .rule => (ofLexemes rest).map (.rule prelude (textOf body))
    | .other => (ofLexemes rest).map (.block prelude (textOf body))
    | .group => (ofLexemes body).bind fun inner => (ofLexemes rest).map (.group prelude inner)

theorem ofLexemes_eq (lexemes : List Lexeme) : ofLexemes lexemes =
    match nextItem lexemes with
    | .error prelude => .error prelude
    | .ok none => .ok (.tail (textOf lexemes))
    | .ok (some (item, rest)) => behindItem rest item := by
  rw [ofLexemes]
  split <;> simp only [*] <;> rfl

theorem ofLexemes_nil : ofLexemes [] = .ok (.tail []) := by
  rw [ofLexemes_eq]
  rfl

section Parse

variable {before prelude body c rest : List Char} {n : Nat}

theorem parse_tail {s : List Char} (tail : Tail 0 s) : parse s = .ok (.tail s) := by
  rw [parse, ofLexemes_eq, nextItem_none tail.nextEnd, textOf_lexemes]

theorem parse_comment (quiet : Quiet 0 before n) (closed : IsComment c) :
    parse (before ++ (c ++ rest)) = (parse rest).map (.comment (before ++ c)) := by
  have found : nextEnd 0 (lexemes (before ++ (c ++ rest))) =
      some (before, .comment c, lexemes rest) := quiet.nextEnd_stop (.comment rest closed)
  rw [parse, ofLexemes_eq, nextItem_comment found]
  rfl

theorem parse_openComment (quiet : Quiet 0 before n) (cut : IsOpenComment c) :
    parse (before ++ c) = .ok (.comment (before ++ c) (.tail [])) := by
  have found := quiet.nextEnd_stop (.openComment cut)
  rw [List.append_nil, Lexeme.text] at found
  rw [parse, ofLexemes_eq, nextItem_comment found]
  simp only [behindItem, lexemes_nil, ofLexemes_nil]
  rfl

theorem parse_statement (quiet : Quiet 0 before 0) :
    parse (before ++ ';' :: rest) = (parse rest).map (.statement (before ++ [';'])) := by
  have found : nextEnd 0 (lexemes (before ++ ';' :: rest)) =
      some (before, .char ';', lexemes rest) := quiet.nextEnd_stop (.char rest (by simp))
  rw [parse, ofLexemes_eq, nextItem_statement found]
  rfl

theorem parse_stray (quiet : Quiet 0 before 0) :
    parse (before ++ '}' :: rest) = (parse rest).map (.stray (before ++ ['}'])) := by
  have found : nextEnd 0 (lexemes (before ++ '}' :: rest)) =
      some (before, .char '}', lexemes rest) := quiet.nextEnd_stop (.char rest (by simp))
  rw [parse, ofLexemes_eq, nextItem_stray found]
  rfl

/-- A block is read as what its prelude says it belongs to. -/
theorem parse_block (quiet : Quiet 0 prelude 0) (inside : Inside 0 body) :
    parse (prelude ++ '{' :: (body ++ '}' :: rest)) =
      match BlockKind.of (Text.trim prelude) with
      | .rule => (parse rest).map (.rule prelude body)
      | .other => (parse rest).map (.block prelude body)
      | .group => (parse body).bind fun inner => (parse rest).map (.group prelude inner) := by
  have found : nextEnd 0 (lexemes (prelude ++ '{' :: (body ++ '}' :: rest))) =
      some (prelude, .char '{', lexemes (body ++ '}' :: rest)) :=
    quiet.nextEnd_stop (.char _ (by simp))
  rw [parse, ofLexemes_eq, nextItem_block found (inside.closeBlock rest)]
  simp only [behindItem, textOf_lexemes]
  rfl

theorem parse_unclosed (quiet : Quiet 0 prelude 0) (unclosed : Unclosed rest) :
    parse (prelude ++ '{' :: rest) = .error prelude := by
  have found : nextEnd 0 (lexemes (prelude ++ '{' :: rest)) =
      some (prelude, .char '{', lexemes rest) := quiet.nextEnd_stop (.char rest (by simp))
  rw [parse, ofLexemes_eq, nextItem_unclosed found ((block_cases 0 rest).resolve_left unclosed)]

end Parse

end Sheet

end StyleModule.Css
