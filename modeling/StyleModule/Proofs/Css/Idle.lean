import StyleModule.Proofs.Css.Items
import StyleModule.Proofs.Css.Reading
import StyleModule.Text.Blank

/-!
# Text that changes nothing for a reader

Two readers go over a stylesheet, one for its comments and one for its items. Neither minds an
`Idle` text, one without any of the signs that either looks for: what is behind such a text is read
as if it were not there. Blanks are idle.
-/

namespace StyleModule.Css

/-- The signs that mean something to a reader of stylesheets. -/
def signs : List Char := ['"', '\'', '\\', '/', '(', ')', '{', '}', ';']

/-- A text without signs. -/
def Idle (s : List Char) : Prop := ∀ c ∈ s, c ∉ signs

theorem idle_of_allBlank {blanks : List Char} (blank : Text.allBlank blanks = true) :
    Idle blanks := by
  intro c mem sign
  have plain : ∀ d ∈ signs, Text.isBlank d = false := by simp [signs, Text.isBlank]
  have shown := List.all_eq_true.1 blank c mem
  rw [plain c sign] at shown
  cases shown

/-! ## The reader of comments -/

/-- A character that is no quote and no backslash and opens no comment is passed over. -/
theorem liveFrom_char {quote : Option Char} {c : Char} {s : List Char}
    (plain : ¬ (c = '"' ∨ c = '\'')) (simple : c ≠ '\\') (apart : ¬ commentStart <+: c :: s) :
    liveFrom (.text quote false) (c :: s) = c :: liveFrom (.text quote false) s := by
  have noComment : ∀ t, quote = none → c = '/' → s = '*' :: t → False := by
    rintro t - rfl rfl
    exact apart ⟨t, rfl⟩
  have other : isQuote c = false := Bool.eq_false_iff.2 (mt isQuote_iff.1 plain)
  rw [liveFrom_text noComment, quoteAfter_of_not_quote other, beq_eq_false_iff_ne.2 simple]

theorem not_commentStart_of_ne {c : Char} (other : c ≠ '/') (s : List Char) :
    ¬ commentStart <+: c :: s := by
  rintro ⟨t, split⟩
  exact other (List.cons.inj split).1.symm

/-- The reader of comments does not mind an idle text. -/
theorem Idle.liveFrom {a : List Char} (idle : Idle a) (quote : Option Char) (s : List Char) :
    Css.liveFrom (.text quote false) (a ++ s) = a ++ Css.liveFrom (.text quote false) s := by
  induction a with
  | nil => rfl
  | cons c a ih =>
    obtain ⟨here, later⟩ := List.forall_mem_cons.1 idle
    simp only [signs, List.mem_cons, List.not_mem_nil, or_false, not_or] at here
    obtain ⟨noDouble, noSingle, noBackslash, noSlash, _⟩ := here
    rw [List.cons_append, liveFrom_char (not_or.2 ⟨noDouble, noSingle⟩) noBackslash
      (not_commentStart_of_ne noSlash _), ih later, List.cons_append]

/-! ## The reader of items -/

theorem parensAfter_char {c : Char} (noOpen : c ≠ '(') (noClose : c ≠ ')') (n : Nat) :
    parensAfter n (.char c) = n :=
  parensAfter.eq_3 n (.char c) (fun h => noOpen (Lexeme.char.inj h)) fun h =>
    noClose (Lexeme.char.inj h)

/-- The reader of items does not mind an idle text. -/
theorem Idle.quiet {a s : List Char} {n m : Nat} (idle : Idle a) (quiet : Quiet n s m) :
    Quiet n (a ++ s) m := by
  induction a with
  | nil => exact quiet
  | cons c a ih =>
    obtain ⟨here, later⟩ := List.forall_mem_cons.1 idle
    simp only [signs, List.mem_cons, List.not_mem_nil, or_false, not_or] at here
    obtain ⟨noDouble, noSingle, _, noSlash, noOpen, noClose, noBrace, noEnd, noSemicolon⟩ := here
    refine .char (not_or.2 ⟨noDouble, noSingle⟩) (not_commentStart_of_ne noSlash _) ?_ ?_
    · exact fun _ => ⟨noBrace, noEnd, noSemicolon⟩
    · rw [parensAfter_char noOpen noClose]
      exact ih later

/-- No item ends in an idle text. -/
theorem Idle.quiet_self {s : List Char} (idle : Idle s) (n : Nat) : Quiet n s n := by
  have whole := idle.quiet (s := []) (n := n) .nil
  rwa [List.append_nil] at whole

end StyleModule.Css
