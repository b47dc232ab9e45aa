import StyleModule.Proofs.Css.Pieces

/-!
# The stretches of a stylesheet

Where the comments of a stylesheet are, told of the text alone. From the left, the text is made of
strings, comments and other characters. A string runs from a quote to the next quote of its kind, a
comment from its opening to the first end mark behind that, and either is left open where the text
ends before. A quote with a backslash before it, in the text, neither opens nor closes a string.

These strings are not those of the reader of items (`IsString`). There a backslash takes the
character behind it along, so that of two backslashes the second escapes nothing; here a quote is
told by the one character before it, in a string or outside.

Every text is made of stretches in exactly one way (`exists_inPlace`, `InPlace.unique`).
-/

namespace StyleModule.Css

/-! ## Strings -/

/-- Does a backslash stand at the end of the text? -/
def endsEscaping (before : List Char) : Bool := before.getLast? == some '\\'

theorem endsEscaping_concat (a : List Char) (c : Char) : endsEscaping (a ++ [c]) = (c == '\\') := by
  simp [endsEscaping]

theorem endsEscaping_append_cons (a : List Char) (c : Char) (b : List Char) :
    endsEscaping (a ++ c :: b) = endsEscaping (c :: b) := by
  rw [endsEscaping, endsEscaping, List.getLast?_append, List.getLast?_cons, Option.some_or]

theorem endsEscaping_quote {quote : Char} (kind : quote = '"' ∨ quote = '\'') (a : List Char) :
    endsEscaping (a ++ [quote]) = false := by
  rw [endsEscaping_concat]
  rcases kind with rfl | rfl <;> rfl

theorem endsEscaping_commentEnd (a : List Char) : endsEscaping (a ++ commentEnd) = false :=
  (endsEscaping_append_cons a '*' ['/']).trans rfl

/-- A string of this quote that is open behind `before` stays open through the text: every such
quote in it has a backslash before it. -/
def StaysOpen (quote : Char) (before inner : List Char) : Prop :=
  ∀ a b, inner = a ++ quote :: b → endsEscaping (before ++ a) = true

/-- A string ends with the quote that closes it, which has no backslash before it, or with the
text. -/
inductive StringTail (quote : Char) (inner : List Char) : (tail after : List Char) → Prop
  | closed {after : List Char} (plain : endsEscaping (quote :: inner) = false) :
      StringTail quote inner [quote] after
  | cut : StringTail quote inner [] []

section Strings

variable {quote : Char} {before inner tail after : List Char}

theorem staysOpen_nil : StaysOpen quote before [] := by
  intro a b split
  simp at split

theorem staysOpen_cons_iff {c : Char} : StaysOpen quote before (c :: inner) ↔
    (c = quote → endsEscaping before = true) ∧ StaysOpen quote (before ++ [c]) inner := by
  constructor
  · intro within
    constructor
    · rintro rfl
      have here := within [] inner rfl
      rwa [List.append_nil] at here
    · intro a b split
      have later := within (c :: a) b (by rw [split]; rfl)
      rwa [List.append_cons] at later
  · rintro ⟨here, later⟩ a b split
    cases a with
    | nil =>
      rw [List.append_nil]
      exact here (List.cons.inj split).1
    | cons d a =>
      obtain ⟨rfl, behind⟩ := List.cons.inj split
      rw [List.append_cons]
      exact later a b behind

/-- Behind a quote there is the first one that closes its string, or none. -/
theorem string_cases (quote : Char) (before s : List Char) :
    (∃ inner rest, StaysOpen quote before inner ∧ endsEscaping (before ++ inner) = false ∧
      s = inner ++ quote :: rest) ∨ StaysOpen quote before s := by
  induction s generalizing before with
  | nil => exact .inr staysOpen_nil
  | cons c s ih =>
    by_cases closes : c = quote ∧ endsEscaping before = false
    · obtain ⟨rfl, plain⟩ := closes
      refine .inl ⟨[], s, staysOpen_nil, ?_, rfl⟩
      rwa [List.append_nil]
    · rw [not_and, Bool.not_eq_false] at closes
      rcases ih (before ++ [c]) with ⟨inner, rest, within, plain, rfl⟩ | within
      · refine .inl ⟨c :: inner, rest, staysOpen_cons_iff.2 ⟨closes, within⟩, ?_, rfl⟩
        rwa [List.append_cons]
      · exact .inr (staysOpen_cons_iff.2 ⟨closes, within⟩)

/-- A string does not stay open beyond its end. -/
theorem StringTail.eq_nil {more rest : List Char} (ends : StringTail quote inner tail after)
    (within : StaysOpen quote [quote] (inner ++ more)) (same : tail ++ after = more ++ rest) :
    more = [] := by
  cases ends with
  | cut => exact (List.append_eq_nil_iff.1 same.symm).1
  | closed plain =>
    cases more with
    | nil => rfl
    | cons c more =>
      obtain ⟨rfl, _⟩ := List.cons.inj same
      have escaped : endsEscaping (quote :: inner) = true := within inner more rfl
      rw [plain] at escaped
      cases escaped

theorem StringTail.unique {tail' after' : List Char} (ends : StringTail quote inner tail after)
    (ends' : StringTail quote inner tail' after') (same : tail ++ after = tail' ++ after') :
    tail = tail' := by
  cases ends with
  | closed =>
    cases ends' with
    | closed => rfl
    | cut => cases same
  | cut => exact (List.append_eq_nil_iff.1 same.symm).1.symm

/-- Where a string ends is told by the text behind its quote. -/
theorem string_unique {inner' tail' after' : List Char} (within : StaysOpen quote [quote] inner)
    (ends : StringTail quote inner tail after) (within' : StaysOpen quote [quote] inner')
    (ends' : StringTail quote inner' tail' after')
    (same : inner ++ (tail ++ after) = inner' ++ (tail' ++ after')) :
    inner ++ tail = inner' ++ tail' := by
  rcases List.append_eq_append_iff.1 same with ⟨more, rfl, behind⟩ | ⟨more, rfl, behind⟩
  · obtain rfl := ends.eq_nil within' behind
    rw [List.append_nil] at ends' ⊢
    rw [ends.unique ends' behind]
  · obtain rfl := ends'.eq_nil within behind
    rw [List.append_nil] at ends ⊢
    rw [ends'.unique ends behind]

end Strings

/-! ## Comments -/

/-- A comment ends with an end mark, or with the text. -/
inductive CommentTail : (tail after : List Char) → Prop
  | closed {after : List Char} : CommentTail commentEnd after
  | cut : CommentTail [] []

/-- A comment goes on as far as the reader of lexemes has it. -/
theorem lexFrom_comment_tail {inner tail after : List Char} (within : ¬ commentEnd <:+: inner)
    (ends : CommentTail tail after) :
    (lexFrom .comment (inner ++ (tail ++ after))).1 = inner ++ tail := by
  cases ends with
  | closed => rw [lexFrom_comment within]
  | cut => rw [List.append_nil, List.append_nil, lexFrom_comment_cut within]

/-! ## Stretches -/

/-- A part of a stylesheet: a character by itself, a string with its quotes, or a comment with its
signs. -/
inductive Stretch where
  | char (c : Char)
  | string (text : List Char)
  | comment (text : List Char)

namespace Stretch

def text : Stretch → List Char
  | char c => [c]
  | string text => text
  | comment text => text

/-- What is no comment of a stretch. -/
def kept : Stretch → List Char
  | char c => [c]
  | string text => text
  | comment _ => []

def isChar : Stretch → Bool
  | char _ => true
  | _ => false

def textOf (stretches : List Stretch) : List Char := stretches.flatMap text

/-- What is in no comment. -/
def keptOf (stretches : List Stretch) : List Char := stretches.flatMap kept

/-- Is the stretch one that begins behind the text `before`, where no string is open, and ends where
`after` begins? -/
inductive Stands (before : List Char) : Stretch → (after : List Char) → Prop
  | char {c : Char} {after : List Char}
      (plain : c = '"' ∨ c = '\'' → endsEscaping before = true)
      (apart : ¬ commentStart <+: c :: after) : Stands before (.char c) after
  | string {quote : Char} {inner tail after : List Char} (kind : quote = '"' ∨ quote = '\'')
      (opens : endsEscaping before = false) (within : StaysOpen quote [quote] inner)
      (ends : StringTail quote inner tail after) :
      Stands before (.string (quote :: (inner ++ tail))) after
  | comment {inner tail after : List Char} (within : ¬ commentEnd <:+: inner)
      (ends : CommentTail tail after) :
      Stands before (.comment (commentStart ++ (inner ++ tail))) after

/-- Each of the stretches is one where it stands, the first of them behind the text `before`. -/
def InPlace (before : List Char) : List Stretch → Prop
  | [] => True
  | stretch :: stretches =>
    stretch.Stands before (textOf stretches) ∧ InPlace (before ++ stretch.text) stretches

/-- The text is made of these stretches. -/
structure MakeUp (s : List Char) (stretches : List Stretch) : Prop where
  text : textOf stretches = s
  inPlace : InPlace [] stretches

variable {before after s : List Char} {stretch : Stretch} {stretches : List Stretch}

theorem textOf_cons (stretch : Stretch) (stretches : List Stretch) :
    textOf (stretch :: stretches) = stretch.text ++ textOf stretches := List.flatMap_cons

theorem textOf_append (a b : List Stretch) : textOf (a ++ b) = textOf a ++ textOf b :=
  List.flatMap_append

theorem keptOf_cons (stretch : Stretch) (stretches : List Stretch) :
    keptOf (stretch :: stretches) = stretch.kept ++ keptOf stretches := List.flatMap_cons

theorem keptOf_append (a b : List Stretch) : keptOf (a ++ b) = keptOf a ++ keptOf b :=
  List.flatMap_append

theorem Stands.text_ne_nil (stands : stretch.Stands before after) : stretch.text ≠ [] := by
  cases stands <;> exact List.cons_ne_nil _ _

/-! ## Every text is made of stretches -/

/-- Some stretch stands at the beginning of a text. -/
theorem exists_stands (before : List Char) {s : List Char} (some : s ≠ []) :
    ∃ stretch rest, s = text stretch ++ rest ∧ Stands before stretch rest := by
  cases s with
  | nil => exact absurd rfl some
  | cons c s =>
    by_cases opens : commentStart <+: c :: s
    · obtain ⟨t, split⟩ := opens
      rw [← split]
      rcases comment_cases t with ⟨inner, rest, first, rfl⟩ | none
      · refine ⟨.comment (commentStart ++ (inner ++ commentEnd)), rest, ?_, .comment first .closed⟩
        rw [text, List.append_assoc, List.append_assoc]
      · refine ⟨.comment (commentStart ++ (t ++ [])), [], ?_, .comment none .cut⟩
        rw [text, List.append_nil, List.append_nil]
    · by_cases quoted : (c = '"' ∨ c = '\'') ∧ endsEscaping before = false
      · obtain ⟨kind, plain⟩ := quoted
        rcases string_cases c [c] s with ⟨inner, rest, within, closes, rfl⟩ | within
        · refine ⟨.string (c :: (inner ++ [c])), rest, ?_,
            .string kind plain within (.closed closes)⟩
          rw [text, List.cons_append, List.append_assoc, List.singleton_append]
        · refine ⟨.string (c :: (s ++ [])), [], ?_, .string kind plain within .cut⟩
          rw [text, List.append_nil, List.append_nil]
      · rw [not_and, Bool.not_eq_false] at quoted
        exact ⟨.char c, s, rfl, .char quoted opens⟩

theorem exists_inPlace (before s : List Char) :
    ∃ stretches, textOf stretches = s ∧ InPlace before stretches := by
  induction length : s.length using Nat.strongRecOn generalizing before s with
  | _ n ih =>
    by_cases empty : s = []
    · exact ⟨[], empty.symm, trivial⟩
    · obtain ⟨stretch, rest, split, stands⟩ := exists_stands before empty
      have shorter : rest.length < n := by
        have := List.length_pos_iff.2 stands.text_ne_nil
        rw [← length, split, List.length_append]
        omega
      obtain ⟨stretches, rfl, inPlace⟩ := ih rest.length shorter (before ++ stretch.text) rest rfl
      exact ⟨stretch :: stretches, split.symm, stands, inPlace⟩

/-! ## No text is made of others -/

theorem Stands.unique {x y : Stretch} {after' : List Char} (hx : x.Stands before after)
    (hy : y.Stands before after') (same : x.text ++ after = y.text ++ after') : x = y := by
  have slash : ∀ {quote : Char}, quote = '"' ∨ quote = '\'' → quote ≠ '/' := by
    rintro _ (rfl | rfl) <;> decide
  cases hx with
  | char plain apart =>
    cases hy with
    | char => rw [(List.cons.inj same).1]
    | string kind opens =>
      obtain ⟨rfl, _⟩ := List.cons.inj same
      rw [plain kind] at opens
      cases opens
    | comment => exact absurd ⟨_, same.symm⟩ apart
  | string kind opens within ends =>
    cases hy with
    | char plain =>
      obtain ⟨rfl, _⟩ := List.cons.inj same
      rw [plain kind] at opens
      cases opens
    | string _ _ within' ends' =>
      simp only [text, List.cons_append, List.append_assoc] at same
      obtain ⟨rfl, behind⟩ := List.cons.inj same
      rw [string_unique within ends within' ends' behind]
    | comment => exact absurd (List.cons.inj same).1 (slash kind)
  | comment within ends =>
    cases hy with
    | char _ apart => exact absurd ⟨_, same⟩ apart
    | string kind => exact absurd (List.cons.inj same).1.symm (slash kind)
    | comment within' ends' =>
      simp only [text, List.append_assoc] at same
      have read := congrArg (fun t => (lexFrom .comment t).1) (List.append_cancel_left same)
      rw [lexFrom_comment_tail within ends, lexFrom_comment_tail within' ends'] at read
      rw [read]

theorem InPlace.unique {others : List Stretch} (here : InPlace before stretches)
    (there : InPlace before others) (same : textOf stretches = textOf others) :
    stretches = others := by
  induction stretches generalizing before others with
  | nil =>
    cases others with
    | nil => rfl
    | cons y others => exact absurd (List.append_eq_nil_iff.1 same.symm).1 there.1.text_ne_nil
  | cons x stretches ih =>
    cases others with
    | nil => exact absurd (List.append_eq_nil_iff.1 same).1 here.1.text_ne_nil
    | cons y others =>
      obtain rfl := here.1.unique there.1 same
      rw [ih here.2 there.2 (List.append_cancel_left same)]

end Stretch

end StyleModule.Css
