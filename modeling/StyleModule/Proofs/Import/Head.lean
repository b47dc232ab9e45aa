import StyleModule.Import.Statement
import StyleModule.Proofs.Css.Idle
import StyleModule.Proofs.Text.Removal

/-!
# Stylesheets that begin with their imports

A `Head` is what a stylesheet mostly begins with: import statements of plain addresses, with nothing
but blanks around them. The reader of comments, the reader of statements and the reader of items
agree on where each statement of a head begins and ends, whatever stands behind the head; and a
statement that is taken out of a stylesheet with a head is taken out of the head, which then is the
head of the other statements.
-/

namespace StyleModule.Statement

open Css (commentStart liveFrom withoutComments Idle Quiet)

/-- One of the two quotes. -/
structure Quote where
  char : Char
  kind : char = '"' ∨ char = '\''

/-- What a statement begins with. -/
def lead : List Char := importWord ++ [' ']

/-- How a statement words its address: as a string, or in the brackets of `url`, there as a string
or bare. -/
inductive Wording where
  | string (quote : Quote)
  | brackets
  | stringInBrackets (quote : Quote)

namespace Wording

/-- What stands between the blank behind `@import` and the address. -/
def opening : Wording → List Char
  | string quote => [quote.char]
  | brackets => urlWord
  | stringInBrackets quote => urlWord ++ [quote.char]

/-- What stands between the address and the semicolon. -/
def closing : Wording → List Char
  | string quote => [quote.char]
  | brackets => [')']
  | stringInBrackets quote => [quote.char, ')']

/-- The string that is open where the address stands. -/
def quote? : Wording → Option Char
  | string quote => some quote.char
  | brackets => none
  | stringInBrackets quote => some quote.char

/-- A statement up to its semicolon. -/
def phrase (wording : Wording) (address : List Char) : List Char :=
  lead ++ (wording.opening ++ (address ++ wording.closing))

/-- The statement that names an address. -/
def statement (wording : Wording) (address : List Char) : Statement :=
  ⟨wording.phrase address ++ [';']⟩

end Wording

/-- An address without quotes, round brackets, semicolons, backslashes, blanks, and signs that open
a comment. It may be empty, and may hold braces. -/
structure PlainAddress (address : List Char) : Prop where
  no_sign : ∀ c ∈ address, c ∉ ['"', '\'', '(', ')', ';', '\\']
  no_blank : ∀ c ∈ address, Text.isBlank c = false
  no_comment : ¬ commentStart <:+: address

/-- The check of a plain address. -/
def isPlainAddress (address : List Char) : Bool :=
  address.all (fun c => !List.contains ['"', '\'', '(', ')', ';', '\\'] c && !Text.isBlank c) &&
    !Text.contains commentStart address

theorem isPlainAddress_iff {address : List Char} :
    isPlainAddress address = true ↔ PlainAddress address := by
  have apart : Text.contains commentStart address = false ↔ ¬ commentStart <:+: address := by
    rw [← Text.contains_iff_infix, Bool.not_eq_true]
  simp only [isPlainAddress, Bool.and_eq_true, List.all_eq_true, Bool.not_eq_true',
    List.contains_eq_mem, decide_eq_false_iff_not, apart]
  constructor
  · rintro ⟨chars, noComment⟩
    exact ⟨fun c mem => (chars c mem).1, fun c mem => (chars c mem).2, noComment⟩
  · intro plain
    exact ⟨fun c mem => ⟨plain.no_sign c mem, plain.no_blank c mem⟩, plain.no_comment⟩

instance (address : List Char) : Decidable (PlainAddress address) :=
  decidable_of_iff _ isPlainAddress_iff

/-- A text that is made of statements with blanks around them. -/
inductive Head : List Statement → List Char → Prop
  | blank {blanks : List Char} (blank : Text.allBlank blanks = true) : Head [] blanks
  | cons {blanks address head : List Char} {statements : List Statement}
      (blank : Text.allBlank blanks = true) (wording : Wording) (plain : PlainAddress address)
      (rest : Head statements head) :
      Head (wording.statement address :: statements)
        (blanks ++ ((wording.statement address).text ++ head))

/-! ## Addresses -/

theorem PlainAddress.of_cons {c : Char} {address : List Char}
    (plain : PlainAddress (c :: address)) :
    (¬ (c = '"' ∨ c = '\'') ∧ c ≠ '\\' ∧ c ≠ '(' ∧ c ≠ ')') ∧ ¬ commentStart <+: c :: address ∧
      PlainAddress address := by
  obtain ⟨sign, signs⟩ := List.forall_mem_cons.1 plain.no_sign
  have apart := plain.no_comment
  rw [List.infix_cons_iff, not_or] at apart
  refine ⟨?_, apart.1, signs, (List.forall_mem_cons.1 plain.no_blank).2, apart.2⟩
  simp only [List.mem_cons, List.not_mem_nil, or_false, not_or] at sign
  obtain ⟨noDouble, noSingle, noOpen, noClose, _, noBackslash⟩ := sign
  exact ⟨not_or.2 ⟨noDouble, noSingle⟩, noBackslash, noOpen, noClose⟩

/-- The reader of comments passes over a plain address, in a string or outside. -/
theorem PlainAddress.liveFrom {address s : List Char} (plain : PlainAddress address)
    (quote : Option Char) (noStar : s.head? ≠ some '*') :
    Css.liveFrom (.text quote false) (address ++ s) =
      address ++ Css.liveFrom (.text quote false) s := by
  induction address with
  | nil => rfl
  | cons c address ih =>
    obtain ⟨⟨noQuote, noBackslash, _⟩, apart, later⟩ := plain.of_cons
    rw [List.cons_append, Css.liveFrom_char noQuote noBackslash (Css.apart_append apart noStar),
      ih later, List.cons_append]

/-- A plain address may stand between quotes. -/
theorem PlainAddress.quotedText {address : List Char} (plain : PlainAddress address)
    {quote : Char} (kind : quote = '"' ∨ quote = '\'') : Css.QuotedText quote address := by
  induction address with
  | nil => exact .nil
  | cons c address ih =>
    obtain ⟨⟨noQuote, noBackslash, _⟩, _, later⟩ := plain.of_cons
    refine .char ?_ noBackslash (ih later)
    rintro rfl
    exact noQuote kind

/-- No item ends in a plain address that stands in round brackets. -/
theorem PlainAddress.quiet {address s : List Char} {n m : Nat} (plain : PlainAddress address)
    (noStar : s.head? ≠ some '*') (quiet : Quiet (n + 1) s m) :
    Quiet (n + 1) (address ++ s) m := by
  induction address with
  | nil => exact quiet
  | cons c address ih =>
    obtain ⟨⟨noQuote, _, noOpen, noClose⟩, apart, later⟩ := plain.of_cons
    refine .char noQuote (Css.apart_append apart noStar) nofun ?_
    rw [Css.parensAfter_char noOpen noClose]
    exact ih later

/-! ## One statement -/

/-- A text is cut behind its first semicolon. -/
theorem semicolon_cut {a : List Char} (lacks : ';' ∉ a) (s : List Char) :
    throughSemicolon (a ++ ';' :: s) = a ++ [';'] ∧ afterSemicolon (a ++ ';' :: s) = s := by
  have other : ∀ c ∈ a, decide (c ≠ ';') = true := by
    intro c mem
    refine decide_eq_true ?_
    rintro rfl
    exact lacks mem
  rw [throughSemicolon, afterSemicolon, List.takeWhile_append_of_pos other,
    List.dropWhile_append_of_pos other]
  simp

namespace Wording

variable {address : List Char}

theorem idle_lead : Idle lead := by
  have spelled : lead = ['@', 'i', 'm', 'p', 'o', 'r', 't', ' '] := rfl
  rw [spelled]
  simp [Idle, Css.signs]

theorem text_append (wording : Wording) (s : List Char) :
    (wording.statement address).text ++ s = wording.phrase address ++ ';' :: s := by
  rw [statement, List.append_assoc, List.singleton_append]

/-- What closes an address is no part of the word that a statement begins with. -/
theorem exists_closing (wording : Wording) :
    ∃ c s, wording.closing = c :: s ∧ c ∉ "import ".toList ∧ c ≠ '*' := by
  rcases wording with ⟨_, rfl | rfl⟩ | _ | ⟨_, rfl | rfl⟩ <;>
    exact ⟨_, _, rfl, by decide, by decide⟩

theorem head?_closing (wording : Wording) (s : List Char) :
    (wording.closing ++ s).head? ≠ some '*' := by
  obtain ⟨c, t, closes, _, other⟩ := wording.exists_closing
  rw [closes]
  exact fun star => other (Option.some.inj star)

theorem not_mem_opening_closing {c : Char} (sign : c = ';' ∨ c = '@') (wording : Wording) :
    c ∉ wording.opening ∧ c ∉ wording.closing := by
  rcases sign with rfl | rfl <;>
    rcases wording with ⟨_, rfl | rfl⟩ | _ | ⟨_, rfl | rfl⟩ <;> decide

theorem semicolon_not_mem_phrase (wording : Wording) (plain : PlainAddress address) :
    ';' ∉ wording.phrase address := by
  obtain ⟨before, behind⟩ := not_mem_opening_closing (.inl rfl) wording
  have within : ';' ∉ address := fun mem => plain.no_sign ';' mem (by decide)
  have begins : ';' ∉ lead := by decide
  simp only [phrase, List.mem_append, not_or]
  exact ⟨begins, before, within, behind⟩

theorem liveFrom_opening (wording : Wording) (s : List Char) :
    liveFrom (.text none false) (wording.opening ++ s) =
      wording.opening ++ liveFrom (.text wording.quote? false) s := by
  rcases wording with ⟨_, rfl | rfl⟩ | _ | ⟨_, rfl | rfl⟩ <;> rfl

theorem liveFrom_closing (wording : Wording) (s : List Char) :
    liveFrom (.text wording.quote? false) (wording.closing ++ ';' :: s) =
      wording.closing ++ ';' :: liveFrom (.text none false) s := by
  rcases wording with ⟨_, rfl | rfl⟩ | _ | ⟨_, rfl | rfl⟩ <;> rfl

/-- The reader of comments finds none in a statement. -/
theorem withoutComments_append (wording : Wording) (plain : PlainAddress address) (s : List Char) :
    withoutComments ((wording.statement address).text ++ s) =
      (wording.statement address).text ++ withoutComments s := by
  rw [text_append, text_append, phrase]
  simp only [List.append_assoc]
  rw [withoutComments, idle_lead.liveFrom, liveFrom_opening, plain.liveFrom _ (head?_closing _ _),
    liveFrom_closing, withoutComments]

theorem quiet_string {s : List Char} {n m : Nat} (quote : Quote) (plain : PlainAddress address)
    (quiet : Quiet n s m) : Quiet n (quote.char :: (address ++ quote.char :: s)) m := by
  have whole : quote.char :: (address ++ quote.char :: s) =
      quote.char :: (address ++ [quote.char]) ++ s := by simp
  rw [whole]
  exact .string (.closed quote.kind (plain.quotedText quote.kind)) quiet

theorem quiet_url {s : List Char} (quiet : Quiet 1 s 0) : Quiet 0 (urlWord ++ s) 0 := by
  have name : Idle "url".toList := by simp [Idle, Css.signs]
  have opens : Quiet 0 ('(' :: s) 0 :=
    .char (by decide) (Css.not_commentStart_of_ne (by decide) s) (by decide) quiet
  exact name.quiet opens

/-- No item ends in a statement before its semicolon. -/
theorem quiet_phrase (wording : Wording) (plain : PlainAddress address) :
    Quiet 0 (wording.phrase address) 0 := by
  have closes : Quiet 1 [')'] 0 := .char (by decide) (by decide) nofun .nil
  refine idle_lead.quiet ?_
  cases wording with
  | string quote => exact quiet_string quote plain .nil
  | brackets => exact quiet_url (plain.quiet (by decide) closes)
  | stringInBrackets quote => exact quiet_url (quiet_string quote plain closes)

/-- The reader of statements finds the statement, and goes on behind it. -/
theorem all_append (wording : Wording) (plain : PlainAddress address) (s : List Char) :
    all ((wording.statement address).text ++ s) = wording.statement address :: all s := by
  rw [text_append]
  have starts : startsAt (wording.phrase address ++ ';' :: s) = true := rfl
  obtain ⟨through, after⟩ := semicolon_cut (semicolon_not_mem_phrase wording plain) s
  cases whole : wording.phrase address ++ ';' :: s with
  | nil => simp at whole
  | cons c t =>
    rw [whole] at starts through after
    rw [all, if_pos starts, through, after]
    rfl

end Wording

/-! ## Taking statements out -/

/-- A word with a blank at its end does not begin in a text without blanks, if what stands behind
the text is no part of it. -/
theorem not_word_of_noBlank {word text s t : List Char} {c : Char}
    (noBlank : ∀ d ∈ text, Text.isBlank d = false) (other : c ∉ word ++ [' ']) :
    text ++ c :: s ≠ word ++ ' ' :: t := by
  induction word generalizing text with
  | nil =>
    intro same
    cases text with
    | nil => exact other (by simp [(List.cons.inj same).1])
    | cons d text =>
      have blank := noBlank d List.mem_cons_self
      rw [(List.cons.inj same).1] at blank
      revert blank
      decide
  | cons w word ih =>
    intro same
    rw [List.cons_append, List.mem_cons, not_or] at other
    cases text with
    | nil => exact other.1 (List.cons.inj same).1
    | cons d text =>
      exact ih (fun e mem => noBlank e (List.mem_cons_of_mem d mem)) other.2 (List.cons.inj same).2

section Removal

variable {word address : List Char}

/-- No statement begins in a text without its at sign. -/
theorem removeFirst_skip {a : List Char} (lacks : '@' ∉ a) (s : List Char) :
    Text.removeFirst (lead ++ word) (a ++ s) = a ++ Text.removeFirst (lead ++ word) s :=
  Text.removeFirst_append_of_not_mem lacks s

/-- No statement begins in a plain address that is closed. -/
theorem PlainAddress.removeFirst (plain : PlainAddress address) (wording : Wording)
    (s : List Char) :
    Text.removeFirst (lead ++ word) (address ++ (wording.closing ++ s)) =
      address ++ Text.removeFirst (lead ++ word) (wording.closing ++ s) := by
  obtain ⟨c, closing, closes, other, _⟩ := wording.exists_closing
  rw [closes]
  refine Text.removeFirst_append ?_
  rintro before d rest rfl ⟨t, split⟩
  -- the blank behind `@import` would have to stand in the address, or the quote or bracket that
  -- closes the address to stand in `@import`
  have noBlank : ∀ e ∈ rest, Text.isBlank e = false := by
    intro e mem
    exact plain.no_blank e (by simp [mem])
  have apart : rest ++ c :: (closing ++ s) ≠ "import".toList ++ ' ' :: (word ++ t) :=
    not_word_of_noBlank noBlank other
  exact apart (List.cons.inj split).2.symm

theorem Wording.exists_word (wording : Wording) (address : List Char) :
    ∃ word, (wording.statement address).text = lead ++ word :=
  ⟨_, List.append_assoc ..⟩

/-- A statement that begins where another does is the other, because both end with their first
semicolon. -/
theorem PlainAddress.eq_of_prefix {wording wording' : Wording} {address' s : List Char}
    (plain : PlainAddress address) (plain' : PlainAddress address')
    (same : (wording'.statement address').text <+: (wording.statement address).text ++ s) :
    wording.statement address = wording'.statement address' := by
  obtain ⟨t, split⟩ := same
  rw [Wording.text_append, Wording.text_append] at split
  have cut := (semicolon_cut (wording.semicolon_not_mem_phrase plain) s).1
  rw [← split, (semicolon_cut (wording'.semicolon_not_mem_phrase plain') t).1] at cut
  exact congrArg Statement.mk cut.symm

/-- No statement begins inside another. -/
theorem Wording.removeFirst (wording : Wording) (plain : PlainAddress address) {s : List Char}
    (other : ¬ lead ++ word <+: (wording.statement address).text ++ s) :
    Text.removeFirst (lead ++ word) ((wording.statement address).text ++ s) =
      (wording.statement address).text ++ Text.removeFirst (lead ++ word) s := by
  obtain ⟨noOpening, noClosing⟩ := not_mem_opening_closing (.inr rfl) wording
  have noName : '@' ∉ "import ".toList ++ wording.opening := by
    rw [List.mem_append, not_or]
    exact ⟨by decide, noOpening⟩
  have noEnd : '@' ∉ wording.closing ++ [';'] := by
    rw [List.mem_append, not_or]
    exact ⟨noClosing, by decide⟩
  have parts : ∀ t, (wording.statement address).text ++ t = '@' ::
      ("import ".toList ++ wording.opening ++ (address ++ (wording.closing ++ ';' :: t))) := by
    intro t
    rw [text_append, phrase]
    simp only [List.append_assoc]
    rfl
  rw [parts] at other
  rw [parts, parts, Text.removeFirst_cons other, removeFirst_skip noName, plain.removeFirst,
    List.append_cons _ ';' s, removeFirst_skip noEnd, ← List.append_cons]

end Removal

/-! ## Heads -/

theorem isLower_eq_false_iff {c : Char} :
    c.isLower = false ↔ c.toNat < 97 ∨ 122 < c.toNat := by
  have spelled : c.isLower = (decide ('a'.val ≤ c.val) && decide (c.val ≤ 'z'.val)) := rfl
  rw [spelled, Bool.and_eq_false_iff, decide_eq_false_iff_not, decide_eq_false_iff_not,
    UInt32.not_le, UInt32.not_le]
  exact Iff.rfl

/-- Only a capital has a small letter for its small form, if not itself. -/
theorem eq_of_toLower_eq {c d : Char} (small : c.toLower = d) (other : d.isLower = false) :
    c = d := by
  unfold Char.toLower at small
  split at small
  next capital =>
    have code := congrArg (fun e : Char => e.val.toNat) small
    obtain ⟨low, high⟩ := capital
    rw [isLower_eq_false_iff] at other
    simp [UInt32.le_iff_toNat_le] at low high code
    omega
  next => exact small

/-- No statement begins with another character than the at sign. -/
theorem startsAt_eq_false {c : Char} (other : c ≠ '@') (s : List Char) :
    startsAt (c :: s) = false := by
  have differs : '@' ≠ c.toLower := fun same => other (eq_of_toLower_eq same.symm rfl)
  have none : Text.afterAnyCase? importWord (c :: s) = .none := if_neg differs
  rw [startsAt, none]

/-- No statement begins in a text without an at sign. -/
theorem all_append_of_not_mem {a : List Char} (lacks : '@' ∉ a) (s : List Char) :
    all (a ++ s) = all s := by
  induction a with
  | nil => rfl
  | cons c a ih =>
    rw [List.mem_cons, not_or] at lacks
    rw [List.cons_append, all, startsAt_eq_false (Ne.symm lacks.1)]
    exact ih lacks.2

namespace Head

variable {statements : List Statement} {head : List Char}

/-- Blanks in front of a head are part of it. -/
theorem prepend {blanks : List Char} (headed : Head statements head)
    (blank : Text.allBlank blanks = true) : Head statements (blanks ++ head) := by
  have joined : ∀ more, Text.allBlank more = true → Text.allBlank (blanks ++ more) = true := by
    intro more also
    rw [Text.allBlank, List.all_append, Bool.and_eq_true]
    exact ⟨blank, also⟩
  cases headed with
  | blank more => exact .blank (joined _ more)
  | cons more wording plain rest =>
    rw [← List.append_assoc]
    exact .cons (joined _ more) wording plain rest

theorem withoutComments_append (headed : Head statements head) (s : List Char) :
    Css.withoutComments (head ++ s) = head ++ Css.withoutComments s := by
  induction headed with
  | blank blank => exact (Css.idle_of_allBlank blank).liveFrom none s
  | cons blank wording plain _ ih =>
    simp only [List.append_assoc]
    rw [← ih, ← wording.withoutComments_append plain]
    exact (Css.idle_of_allBlank blank).liveFrom none _

/-- The statements of a text with a head are those of the head and those behind it. -/
theorem all_append (headed : Head statements head) (s : List Char) :
    all (head ++ s) = statements ++ all s := by
  induction headed with
  | blank blank => exact all_append_of_not_mem (Text.not_mem_of_allBlank blank rfl) s
  | cons blank wording plain _ ih =>
    rw [List.append_assoc, List.append_assoc,
      all_append_of_not_mem (Text.not_mem_of_allBlank blank rfl), wording.all_append plain, ih,
      List.cons_append]

theorem exists_wording (headed : Head statements head) :
    ∀ statement ∈ statements, ∃ wording address,
      PlainAddress address ∧ statement = Wording.statement wording address := by
  induction headed with
  | blank => nofun
  | cons blank wording plain _ ih =>
    intro statement mem
    rcases List.mem_cons.1 mem with rfl | later
    · exact ⟨wording, _, plain, rfl⟩
    · exact ih statement later

/-- A statement of a head that is taken out of a text is taken out of the head, whatever stands
behind it. What is left is the head of the others. -/
theorem removeFirst (headed : Head statements head) {statement : Statement}
    (mem : statement ∈ statements) :
    ∃ left, Head (statements.erase statement) left ∧
      ∀ s, Text.removeFirst statement.text (head ++ s) = left ++ s := by
  induction headed with
  | blank => cases mem
  | @cons blanks address head statements blank wording plain rest ih =>
    obtain ⟨wording', address', plain', rfl⟩ :=
      (Head.cons blank wording plain rest).exists_wording statement mem
    obtain ⟨word, text⟩ := wording'.exists_word address'
    have noAt := Text.not_mem_of_allBlank (c := '@') blank rfl
    by_cases own : wording.statement address = wording'.statement address'
    · rw [own, List.erase_cons_head]
      refine ⟨blanks ++ head, rest.prepend blank, ?_⟩
      intro s
      simp only [List.append_assoc]
      rw [text, removeFirst_skip noAt, Text.removeFirst_word]
    · have later := (List.mem_cons.1 mem).resolve_left (Ne.symm own)
      obtain ⟨left, headed, removed⟩ := ih later
      rw [List.erase_cons_tail (by simpa using own)]
      refine ⟨_, .cons blank wording plain headed, ?_⟩
      intro s
      have other : ¬ lead ++ word <+: (wording.statement address).text ++ (head ++ s) := by
        rw [← text]
        exact fun same => own (plain.eq_of_prefix plain' same)
      rw [text] at removed ⊢
      simp only [List.append_assoc]
      rw [removeFirst_skip noAt, wording.removeFirst plain other, removed]

end Head

end StyleModule.Statement
