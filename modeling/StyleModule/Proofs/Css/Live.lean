import StyleModule.Proofs.Css.Idle

/-!
# Comments and items

The reader of comments and the reader of items go over the same text. Where it has no backslash they
see the same strings and comments, so what is read as an item is live but for its comments:
`Quiet.live`, `Inside.live`, `Tail.live`.

All that the reader of comments knows outside a comment is then the quote that is open
(`quoteThrough`). A text in which it sees no comment is passed over from there
(`liveFrom_append_of_live`).
-/

namespace StyleModule.Css

variable {s : List Char}

/-! ## Strings -/

theorem QuotedText.live {quote : Char} {inner : List Char} (text : QuotedText quote inner)
    (plain : '\\' ∉ inner) (s : List Char) :
    liveFrom (.text (some quote) false) (inner ++ s) =
      inner ++ liveFrom (.text (some quote) false) s := by
  induction text with
  | nil => rfl
  | escape => exact absurd List.mem_cons_self plain
  | @char c inner other simple _ ih =>
    rw [List.mem_cons, not_or] at plain
    rw [List.cons_append, liveFrom_text (by simp), quoteAfter_of_ne other, beq_false_of_ne simple, ih plain.2,
      List.cons_append]

/-- A quote opens a string. -/
theorem liveFrom_opening {quote : Char} (kind : quote = '"' ∨ quote = '\'') (s : List Char) :
    liveFrom (.text none false) (quote :: s) =
      quote :: liveFrom (.text (some quote) false) s := by
  rcases kind with rfl | rfl <;> rfl

/-- A string is closed by the quote that opened it. -/
theorem liveFrom_closing {quote : Char} (kind : quote = '"' ∨ quote = '\'') (s : List Char) :
    liveFrom (.text (some quote) false) (quote :: s) =
      quote :: liveFrom (.text none false) s := by
  rcases kind with rfl | rfl <;> rfl

theorem IsString.live {q : List Char} (closed : IsString q) (plain : '\\' ∉ q) (s : List Char) :
    liveFrom (.text none false) (q ++ s) = q ++ liveFrom (.text none false) s := by
  obtain ⟨kind, text⟩ := closed
  simp only [List.mem_cons, List.mem_append, not_or] at plain
  rw [List.cons_append, List.append_assoc, liveFrom_opening kind, text.live plain.2.1,
    List.singleton_append, liveFrom_closing kind]
  simp

/-! ## Comments -/

theorem liveFrom_comment {inner : List Char} (first : ¬ commentEnd <:+: inner) (s : List Char) :
    liveFrom .comment (inner ++ (commentEnd ++ s)) = liveFrom (.text none false) s := by
  induction inner with
  | nil => rfl
  | cons c inner ih =>
    rw [List.infix_cons_iff, not_or] at first
    have within : ∀ t, c = '*' → inner ++ (commentEnd ++ s) = '/' :: t → False := by
      rintro t rfl split
      cases inner with
      | nil => cases split
      | cons d inner =>
        obtain ⟨rfl, _⟩ := List.cons.inj split
        exact first.1 ⟨inner, rfl⟩
    rw [List.cons_append, liveFrom_within within, ih first.2]

theorem liveFrom_openComment {inner : List Char} (none : ¬ commentEnd <:+: inner)
    (noSlash : s.head? ≠ some '/') : liveFrom .comment (inner ++ s) = liveFrom .comment s := by
  induction inner with
  | nil => rfl
  | cons c inner ih =>
    rw [List.infix_cons_iff, not_or] at none
    have within : ∀ t, c = '*' → inner ++ s = '/' :: t → False := by
      rintro t rfl split
      cases inner with
      | nil =>
        rw [List.nil_append] at split
        exact noSlash (by rw [split]; rfl)
      | cons d inner =>
        obtain ⟨rfl, _⟩ := List.cons.inj split
        exact none.1 ⟨inner, rfl⟩
    rw [List.cons_append, liveFrom_within within, ih none.2]

/-- A comment is not seen. -/
theorem IsComment.live {c : List Char} (closed : IsComment c) (s : List Char) :
    liveFrom (.text none false) (c ++ s) = liveFrom (.text none false) s := by
  obtain ⟨first⟩ := closed
  rw [List.cons_append, List.cons_append, List.append_assoc, liveFrom, liveFrom_comment first]

theorem IsOpenComment.live {c : List Char} (cut : IsOpenComment c) (noSlash : s.head? ≠ some '/') :
    liveFrom (.text none false) (c ++ s) = liveFrom .comment s := by
  obtain ⟨unclosed⟩ := cut
  rw [List.cons_append, List.cons_append, liveFrom, liveFrom_openComment unclosed noSlash]

/-! ## Items -/

/-- All of a text in which no item ends is seen. -/
theorem Quiet.live {n m : Nat} {t : List Char} (quiet : Quiet n t m) (plain : '\\' ∉ t)
    (noStar : s.head? ≠ some '*') :
    liveFrom (.text none false) (t ++ s) = t ++ liveFrom (.text none false) s := by
  induction quiet with
  | nil => rfl
  | string closed _ ih =>
    rw [List.mem_append, not_or] at plain
    rw [List.append_assoc, closed.live plain.1, ih plain.2, List.append_assoc]
  | char noQuote apart _ _ ih =>
    rw [List.mem_cons, not_or] at plain
    rw [List.cons_append, liveFrom_char noQuote (Ne.symm plain.1) (apart_append apart noStar),
      ih plain.2, List.cons_append]

/-- What is seen of the inside of a block, and that none of it is open at its end. -/
theorem Inside.live {depth : Nat} {b : List Char} (inside : Inside depth b) (plain : '\\' ∉ b) :
    ∃ live, ∀ s, s.head? ≠ some '*' →
      liveFrom (.text none false) (b ++ s) = live ++ liveFrom (.text none false) s := by
  induction inside with
  | nil => exact ⟨[], fun _ _ => rfl⟩
  | opens _ ih =>
    rw [List.mem_cons, not_or] at plain
    obtain ⟨live, rest⟩ := ih plain.2
    refine ⟨'{' :: live, fun s noStar => ?_⟩
    exact congrArg ('{' :: ·) (rest s noStar)
  | closes _ ih =>
    rw [List.mem_cons, not_or] at plain
    obtain ⟨live, rest⟩ := ih plain.2
    refine ⟨'}' :: live, fun s noStar => ?_⟩
    exact congrArg ('}' :: ·) (rest s noStar)
  | @string _ q _ closed _ ih =>
    rw [List.mem_append, not_or] at plain
    obtain ⟨live, rest⟩ := ih plain.2
    refine ⟨q ++ live, fun s noStar => ?_⟩
    rw [List.append_assoc, closed.live plain.1, rest s noStar, List.append_assoc]
  | comment closed _ ih =>
    rw [List.mem_append, not_or] at plain
    obtain ⟨live, rest⟩ := ih plain.2
    refine ⟨live, fun s noStar => ?_⟩
    rw [List.append_assoc, closed.live, rest s noStar]
  | @char _ c _ noQuote apart _ _ ih =>
    rw [List.mem_cons, not_or] at plain
    obtain ⟨live, rest⟩ := ih plain.2
    refine ⟨c :: live, fun s noStar => ?_⟩
    rw [List.cons_append, liveFrom_char noQuote (Ne.symm plain.1) (apart_append apart noStar),
      rest s noStar, List.cons_append]

/-- All of a tail is seen; it may end in a string. -/
theorem Tail.live {n : Nat} {t : List Char} (tail : Tail n t) (plain : '\\' ∉ t) :
    ∃ r, ∀ s, s.head? ≠ some '*' →
      liveFrom (.text none false) (t ++ s) = t ++ liveFrom r s := by
  obtain ⟨quiet, rfl | cut⟩ := tail
  · rw [List.append_nil] at plain ⊢
    exact ⟨_, fun s noStar => quiet.live plain noStar⟩
  · rw [List.mem_append, not_or] at plain
    cases cut with
    | @cut quote inner kind text =>
      refine ⟨.text (some quote) false, fun s _ => ?_⟩
      have noStar : (quote :: inner ++ s).head? ≠ some '*' := by
        rcases kind with rfl | rfl <;> simp
      rw [List.mem_cons, not_or] at plain
      rw [List.append_assoc, quiet.live plain.1 noStar, List.cons_append, liveFrom_opening kind,
        text.live plain.2.2]
      simp
    | escaping => exact absurd (by simp) plain.2

/-! ## The open quote -/

/-- The quote that is open behind a text without backslashes. -/
def quoteThrough (quote : Option Char) (t : List Char) : Option Char :=
  t.foldl (fun quote c => quoteAfter quote false c) quote

theorem quoteThrough_append (quote : Option Char) (a b : List Char) :
    quoteThrough quote (a ++ b) = quoteThrough (quoteThrough quote a) b := List.foldl_append

/-- The quotes of a text, one after the other. -/
def quotesOf (t : List Char) : List Char := t.filter isQuote

/-- Only quotes matter to the quote that is open. -/
theorem quoteThrough_quotesOf (quote : Option Char) (t : List Char) :
    quoteThrough quote (quotesOf t) = quoteThrough quote t := by
  induction t generalizing quote with
  | nil => rfl
  | cons c t ih =>
    by_cases kind : isQuote c = true
    · rw [quotesOf, List.filter_cons_of_pos kind]
      exact ih _
    · have stays := quoteAfter_of_not_quote (Bool.eq_false_iff.2 kind) quote false
      rw [quotesOf, List.filter_cons_of_neg kind, ← quotesOf, ih, quoteThrough, quoteThrough,
        List.foldl_cons, stays]

theorem length_liveFrom_le (r : Reading) (t : List Char) : (liveFrom r t).length ≤ t.length := by
  fun_induction liveFrom r t with
  | case1 => exact Nat.le_refl _
  | _ => simp only [List.length_cons] at *; omega

/-- A text in which no comment is seen is passed over. -/
theorem liveFrom_append_of_live {quote : Option Char} {t : List Char} (plain : '\\' ∉ t)
    (live : liveFrom (.text quote false) t = t)
    (apart : t.getLast? = some '/' → s.head? ≠ some '*') :
    liveFrom (.text quote false) (t ++ s) =
      t ++ liveFrom (.text (quoteThrough quote t) false) s := by
  induction t generalizing quote with
  | nil => rfl
  | cons c t ih =>
    rw [List.mem_cons, not_or] at plain
    have noComment : ∀ u, quote = none → c = '/' → t ++ s = '*' :: u → False := by
      rintro u rfl rfl split
      cases t with
      | nil => exact apart rfl (by rw [List.nil_append] at split; rw [split]; rfl)
      | cons d t =>
        -- a comment would be seen, and the text not all live
        obtain ⟨rfl, _⟩ := List.cons.inj split
        have shorter := length_liveFrom_le .comment t
        have whole := congrArg List.length live
        rw [liveFrom, List.length_cons, List.length_cons] at whole
        omega
    have noCommentHere : ∀ u, quote = none → c = '/' → t = '*' :: u → False :=
      fun u none slash split => noComment (u ++ s) none slash (by rw [split]; rfl)
    rw [liveFrom_text noCommentHere, beq_false_of_ne (Ne.symm plain.1)] at live
    rw [List.cons_append, liveFrom_text noComment, beq_false_of_ne (Ne.symm plain.1),
      ih plain.2 (List.cons.inj live).2 fun last => apart ?_]
    · rfl
    · cases t with
      | nil => cases last
      | cons d t => exact last

/-- Where no comment begins in a text, none is seen in it. -/
theorem liveFrom_eq_self {quote : Option Char} {t : List Char} (plain : '\\' ∉ t)
    (absent : ¬ commentStart <:+: t) : liveFrom (.text quote false) t = t := by
  induction t generalizing quote with
  | nil => rfl
  | cons c t ih =>
    rw [List.mem_cons, not_or] at plain
    rw [List.infix_cons_iff, not_or] at absent
    have noComment : ∀ u, quote = none → c = '/' → t = '*' :: u → False := by
      rintro u - rfl rfl
      exact absent.1 ⟨u, rfl⟩
    rw [liveFrom_text noComment, beq_false_of_ne (Ne.symm plain.1), ih plain.2 absent.2]

theorem QuotedText.quoteThrough {quote : Char} {inner : List Char} (text : QuotedText quote inner)
    (plain : '\\' ∉ inner) : Css.quoteThrough (some quote) inner = some quote := by
  induction text with
  | nil => rfl
  | escape => exact absurd List.mem_cons_self plain
  | @char c inner other _ _ ih =>
    rw [List.mem_cons, not_or] at plain
    rw [Css.quoteThrough, List.foldl_cons, quoteAfter_of_ne other]
    exact ih plain.2

theorem IsString.quoteThrough {q : List Char} (closed : IsString q) (plain : '\\' ∉ q) :
    Css.quoteThrough none q = none := by
  obtain ⟨kind, text⟩ := closed
  simp only [List.mem_cons, List.mem_append, not_or] at plain
  rw [Css.quoteThrough, List.foldl_cons, ← Css.quoteThrough, quoteThrough_append]
  rcases kind with rfl | rfl
  · exact congrArg (Css.quoteThrough · ['"']) (text.quoteThrough plain.2.1)
  · exact congrArg (Css.quoteThrough · ['\'']) (text.quoteThrough plain.2.1)

/-- No string is open behind a text in which no item ends. -/
theorem Quiet.quoteThrough {n m : Nat} {t : List Char} (quiet : Quiet n t m) (plain : '\\' ∉ t) :
    Css.quoteThrough none t = none := by
  induction quiet with
  | nil => rfl
  | string closed _ ih =>
    rw [List.mem_append, not_or] at plain
    rw [quoteThrough_append, closed.quoteThrough plain.1, ih plain.2]
  | @char n m c s noQuote _ _ _ ih =>
    rw [List.mem_cons, not_or] at plain
    have other : isQuote c = false := Bool.eq_false_iff.2 (mt isQuote_iff.1 noQuote)
    rw [Css.quoteThrough, List.foldl_cons, quoteAfter_of_not_quote other]
    exact ih plain.2

end StyleModule.Css
