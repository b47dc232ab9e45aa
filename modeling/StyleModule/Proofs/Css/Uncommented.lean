import Mathlib.Logic.ExistsUnique
import StyleModule.Proofs.Css.Live
import StyleModule.Proofs.Css.Stretches

/-!
# A stylesheet without its comments

The reader of comments leaves out the stretches of a stylesheet that are comments, and sees all
others (`Stretch.InPlace.liveFrom`). What it knows behind a stretch is no more than whether a
backslash stands there, so a string or a comment may be put in place of another, and all other
stretches are seen as before (`Stretch.InPlace.replace`).
-/

namespace StyleModule.Css

/-! ## Inside a string, inside a comment -/

/-- The reader of comments passes over the inside of a string. -/
theorem StaysOpen.liveFrom {quote : Char} {before inner : List Char}
    (within : StaysOpen quote before inner) (s : List Char) :
    Css.liveFrom (.text (some quote) (endsEscaping before)) (inner ++ s) =
      inner ++ Css.liveFrom (.text (some quote) (endsEscaping (before ++ inner))) s := by
  induction inner generalizing before with
  | nil => rw [List.append_nil]; rfl
  | cons c inner ih =>
    obtain ⟨here, later⟩ := staysOpen_cons_iff.1 within
    have stays : quoteAfter (some quote) (endsEscaping before) c = some quote := by
      by_cases closes : c = quote
      · rw [here closes]
        rfl
      · exact quoteAfter_of_ne closes _
    have read := ih later
    rw [endsEscaping_concat, ← List.append_cons] at read
    rw [List.cons_append, liveFrom_text (by simp), stays, read, List.cons_append]

theorem liveFrom_comment_tail {inner tail after : List Char} (within : ¬ commentEnd <:+: inner)
    (ends : CommentTail tail after) :
    liveFrom .comment (inner ++ (tail ++ after)) = liveFrom (.text none false) after := by
  cases ends with
  | closed => exact liveFrom_comment within after
  | cut =>
    have read := liveFrom_openComment (s := []) within nofun
    rw [List.append_nil, read, liveFrom_nil, liveFrom_nil]

namespace Stretch

variable {before after s : List Char} {stretch : Stretch} {stretches : List Stretch}

/-! ## What the reader of comments sees -/

/-- Where a string or a comment ends is no backslash, unless the text ends there. -/
theorem Stands.endsEscaping_eq_false (stands : stretch.Stands before after)
    (long : stretch.isChar = false) (more : after ≠ []) :
    endsEscaping (before ++ stretch.text) = false := by
  cases stands with
  | char => cases long
  | string kind _ _ ends =>
    cases ends with
    | closed => rw [text, ← List.cons_append, ← List.append_assoc, endsEscaping_quote kind]
    | cut => exact absurd rfl more
  | comment _ ends =>
    cases ends with
    | closed => rw [text, ← List.append_assoc, ← List.append_assoc, endsEscaping_commentEnd]
    | cut => exact absurd rfl more

theorem Stands.liveFrom_behind (stands : stretch.Stands before after)
    (long : stretch.isChar = false) :
    Css.liveFrom (.text none (endsEscaping (before ++ stretch.text))) after =
      Css.liveFrom (.text none false) after := by
  by_cases more : after = []
  · rw [more, liveFrom_nil, liveFrom_nil]
  · rw [stands.endsEscaping_eq_false long more]

/-- A stretch that is a comment is left out, and any other is seen. -/
theorem Stands.liveFrom (stands : stretch.Stands before after) :
    Css.liveFrom (.text none (endsEscaping before)) (stretch.text ++ after) =
      stretch.kept ++
        Css.liveFrom (.text none (endsEscaping (before ++ stretch.text))) after := by
  cases stands with
  | @char c _ plain apart =>
    have noComment : ∀ t, (none : Option Char) = none → c = '/' → after = '*' :: t → False := by
      rintro t - rfl rfl
      exact apart ⟨t, rfl⟩
    have stays : quoteAfter none (endsEscaping before) c = none := by
      by_cases kind : c = '"' ∨ c = '\''
      · rw [plain kind]
        rfl
      · exact quoteAfter_of_not_quote (Bool.eq_false_iff.2 (mt isQuote_iff.1 kind)) _ _
    rw [text, kept, endsEscaping_concat, List.singleton_append, liveFrom_text noComment, stays]
    rfl
  | @string quote inner tail _ kind opens within ends =>
    have inside := within.liveFrom (tail ++ after)
    rw [← List.nil_append [quote], endsEscaping_quote kind] at inside
    rw [(Stands.string kind opens within ends).liveFrom_behind rfl, opens, text, kept,
      List.cons_append, List.append_assoc, liveFrom_opening kind, inside]
    cases ends with
    | closed closes =>
      rw [List.nil_append, List.singleton_append, closes, List.singleton_append,
        liveFrom_closing kind]
      simp
    | cut => simp [liveFrom_nil]
  | @comment inner tail _ within ends =>
    have opened : Css.liveFrom (.text none (endsEscaping before))
        (commentStart ++ (inner ++ tail) ++ after) =
          Css.liveFrom .comment (inner ++ (tail ++ after)) := by
      rw [List.append_assoc, List.append_assoc]
      rfl
    rw [(Stands.comment within ends).liveFrom_behind rfl, text, kept, opened,
      liveFrom_comment_tail within ends, List.nil_append]

/-- The reader of comments sees what is in no comment. -/
theorem InPlace.liveFrom (inPlace : InPlace before stretches) :
    Css.liveFrom (.text none (endsEscaping before)) (textOf stretches) = keptOf stretches := by
  induction stretches generalizing before with
  | nil => exact liveFrom_nil _
  | cons stretch stretches ih =>
    rw [textOf_cons, inPlace.1.liveFrom, ih inPlace.2]
    rfl

/-! ## One stretch for another -/

theorem Stands.congr {before' : List Char} (same : endsEscaping before = endsEscaping before')
    (stands : stretch.Stands before after) : stretch.Stands before' after := by
  cases stands with
  | char plain apart => exact .char (same ▸ plain) apart
  | string kind opens within ends => exact .string kind (same ▸ opens) within ends
  | comment within ends => exact .comment within ends

/-- Stretches go by no more of the text before them than whether it ends in a backslash. -/
theorem InPlace.congr {before' : List Char} (same : endsEscaping before = endsEscaping before')
    (inPlace : InPlace before stretches) : InPlace before' stretches := by
  induction stretches generalizing before before' with
  | nil => trivial
  | cons stretch stretches ih =>
    refine ⟨inPlace.1.congr same, ih ?_ inPlace.2⟩
    obtain ⟨c, t, split⟩ := List.exists_cons_of_ne_nil inPlace.1.text_ne_nil
    rw [split, endsEscaping_append_cons, endsEscaping_append_cons]

/-- A stretch in front of others stands there too if all of these are put in place of some. -/
theorem Stands.behind {u v v' : List Char} (stands : stretch.Stands before (u ++ v))
    (some : v ≠ []) (noStar : v'.head? ≠ Option.some '*') : stretch.Stands before (u ++ v') := by
  have more : u ++ v ≠ [] := fun none => some (List.append_eq_nil_iff.1 none).2
  generalize whole : u ++ v = after at stands more
  cases stands with
  | char plain apart =>
    rw [← whole] at apart
    exact .char plain (apart_append (apart_of_append apart) noStar)
  | string kind opens within ends =>
    cases ends with
    | closed closes => exact .string kind opens within (.closed closes)
    | cut => exact absurd rfl more
  | comment within ends =>
    cases ends with
    | closed => exact .comment within .closed
    | cut => exact absurd rfl more

theorem Stands.head?_text (stands : stretch.Stands before after) (long : stretch.isChar = false)
    (s : List Char) : (stretch.text ++ s).head? ≠ some '*' := by
  cases stands with
  | char => cases long
  | string kind =>
    rcases kind with rfl | rfl <;> simp [text]
  | comment => simp [text, commentStart]

theorem InPlace.stands {a b : List Stretch} (inPlace : InPlace before (a ++ stretch :: b)) :
    stretch.Stands (before ++ textOf a) (textOf b) := by
  induction a generalizing before with
  | nil =>
    rw [textOf, List.flatMap_nil, List.append_nil]
    exact inPlace.1
  | cons x a ih =>
    rw [textOf_cons, ← List.append_assoc]
    exact ih inPlace.2

/-- A comment that ends before the text does has both its signs. -/
theorem Stands.eq_nil_of_short {comment : List Char}
    (stands : Stands before (.comment comment) after) (short : comment.length < 4) : after = [] := by
  cases stands with
  | comment _ ends =>
    cases ends with
    | closed =>
      simp only [commentStart, commentEnd, List.length_append, List.length_cons] at short
      omega
    | cut => rfl

theorem InPlace.eq_nil (inPlace : InPlace before stretches) (empty : textOf stretches = []) :
    stretches = [] := by
  cases stretches with
  | nil => rfl
  | cons x stretches =>
    exact absurd (List.append_eq_nil_iff.1 empty).1 inPlace.1.text_ne_nil

/-- A string or a comment in place of another leaves all other stretches in place. -/
theorem InPlace.replace {other : Stretch} {a b : List Stretch}
    (inPlace : InPlace before (a ++ stretch :: b)) (long : stretch.isChar = false)
    (stands : other.Stands (before ++ textOf a) (textOf b)) (long' : other.isChar = false) :
    InPlace before (a ++ other :: b) := by
  induction a generalizing before with
  | nil =>
    rw [textOf, List.flatMap_nil, List.append_nil] at stands
    refine ⟨stands, ?_⟩
    by_cases more : textOf b = []
    · have none : b = [] := inPlace.2.eq_nil more
      subst none
      trivial
    · refine inPlace.2.congr ?_
      rw [inPlace.1.endsEscaping_eq_false long more, stands.endsEscaping_eq_false long' more]
  | cons x a ih =>
    have here : x.Stands before (textOf (a ++ stretch :: b)) := inPlace.1
    have later : InPlace (before ++ x.text) (a ++ stretch :: b) := inPlace.2
    have some : stretch.text ++ textOf b ≠ [] := fun none =>
      later.stands.text_ne_nil (List.append_eq_nil_iff.1 none).1
    rw [textOf_cons, ← List.append_assoc] at stands
    have there : x.Stands before (textOf (a ++ other :: b)) := by
      rw [textOf_append, textOf_cons] at here ⊢
      exact here.behind some (stands.head?_text long' _)
    exact ⟨there, ih later stands⟩

/-- A text is made of stretches in one way, and without its comments it is made of those that are no
comments. What is in a string or a comment matters to no other stretch: with another string or
comment in its place all others are kept as they were. The sign `/*/` opens a comment and does not
end it: a comment of no more than that is at the end of the text. -/
theorem withoutComments_makeUp (s : List Char) :
    (∃! stretches, MakeUp s stretches) ∧
      ∀ stretches, MakeUp s stretches → withoutComments s = keptOf stretches ∧
        (∀ (before : List Stretch) (here : Stretch) (after : List Stretch) (there : Stretch),
          stretches = before ++ here :: after → here.isChar = false → there.isChar = false →
            there.Stands (textOf before) (textOf after) →
              withoutComments (textOf before ++ (there.text ++ textOf after)) =
                keptOf before ++ (there.kept ++ keptOf after)) ∧
        ∀ before after, stretches = before ++ comment "/*/".toList :: after →
          textOf after = [] := by
  constructor
  · obtain ⟨stretches, text, inPlace⟩ := exists_inPlace [] s
    refine ⟨stretches, ⟨text, inPlace⟩, ?_⟩
    rintro others ⟨text', inPlace'⟩
    exact inPlace'.unique inPlace (text'.trans text.symm)
  · rintro stretches ⟨rfl, inPlace⟩
    refine ⟨inPlace.liveFrom, ?_, ?_⟩
    · rintro before here after there rfl long long' stands
      have whole := (inPlace.replace long stands long').liveFrom
      rw [textOf_append, textOf_cons, keptOf_append, keptOf_cons] at whole
      exact whole
    · rintro before after rfl
      exact inPlace.stands.eq_nil_of_short (by decide)

/-- A quote behind a backslash opens no string, nor does one in a comment; `/*/` ends no comment,
and in a string none begins. -/
example : withoutComments "\\'/*/'*/a'/*'".toList = "\\'a'/*'".toList := by decide

end Stretch

end StyleModule.Css
