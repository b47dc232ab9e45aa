import StyleModule.Text.Blank

/-!
# Margins

The three parts that the blanks at its ends cut a text into, told without the cutting: blanks, a
core that neither begins nor ends with a blank, and blanks again. `margins_trim` says that the parts
that are cut are such, `Margins.trim` and its neighbours that there are no others.
-/

namespace StyleModule.Text

/-- Blanks, a core between them, and blanks; the blanks of a text without a core are all in
front. -/
structure Margins (leading core trailing : List Char) : Prop where
  leading_blank : allBlank leading = true
  trailing_blank : allBlank trailing = true
  core_head : ∀ c ∈ core.head?, isBlank c = false
  core_last : ∀ c ∈ core.getLast?, isBlank c = false
  all_leading : core = [] → trailing = []

theorem takeWhile_eq_nil_of_head? {s : List Char} (head : ∀ c ∈ s.head?, isBlank c = false) :
    s.takeWhile isBlank = [] ∧ s.dropWhile isBlank = s := by
  cases s with
  | nil => exact ⟨rfl, rfl⟩
  | cons c s =>
    have plain : ¬ isBlank c = true := by simp [head c rfl]
    exact ⟨List.takeWhile_cons_of_neg plain, List.dropWhile_cons_of_neg plain⟩

/-- Blanks in front of a text that begins with none are its head. -/
theorem cut_blanks {blanks s : List Char} (blank : allBlank blanks = true)
    (head : ∀ c ∈ s.head?, isBlank c = false) :
    (blanks ++ s).takeWhile isBlank = blanks ∧ (blanks ++ s).dropWhile isBlank = s := by
  have all := List.all_eq_true.1 blank
  obtain ⟨take, drop⟩ := takeWhile_eq_nil_of_head? head
  rw [List.takeWhile_append_of_pos all, List.dropWhile_append_of_pos all, take, drop,
    List.append_nil]
  exact ⟨rfl, rfl⟩

theorem allBlank_reverse {s : List Char} (blank : allBlank s = true) :
    allBlank s.reverse = true := by
  rwa [allBlank, List.all_reverse]

namespace Margins

variable {leading core trailing : List Char} (m : Margins leading core trailing)

include m

theorem head_tail : ∀ c ∈ (core ++ trailing).head?, isBlank c = false := by
  cases core with
  | nil => rw [m.all_leading rfl]; nofun
  | cons c core => exact m.core_head

theorem blankHead : Text.blankHead (leading ++ (core ++ trailing)) = leading :=
  (cut_blanks m.leading_blank m.head_tail).1

theorem dropBlanks : Text.dropBlanks (leading ++ (core ++ trailing)) = core ++ trailing :=
  (cut_blanks m.leading_blank m.head_tail).2

theorem cut_reverse :
    (core ++ trailing).reverse.takeWhile isBlank = trailing.reverse ∧
      (core ++ trailing).reverse.dropWhile isBlank = core.reverse := by
  rw [List.reverse_append]
  refine cut_blanks (allBlank_reverse m.trailing_blank) ?_
  rw [List.head?_reverse]
  exact m.core_last

theorem trim : Text.trim (leading ++ (core ++ trailing)) = core := by
  rw [Text.trim, m.dropBlanks, dropBlanksEnd, m.cut_reverse.2, List.reverse_reverse]

theorem blankTail : Text.blankTail (leading ++ (core ++ trailing)) = trailing := by
  rw [Text.blankTail, m.dropBlanks, m.cut_reverse.1, List.reverse_reverse]

/-- More blanks in front are more of the head. -/
theorem prepend {blanks : List Char} (blank : allBlank blanks = true) :
    Margins (blanks ++ leading) core trailing where
  leading_blank := by
    rw [allBlank, List.all_append, Bool.and_eq_true]
    exact ⟨blank, m.leading_blank⟩
  trailing_blank := m.trailing_blank
  core_head := m.core_head
  core_last := m.core_last
  all_leading := m.all_leading

end Margins

theorem head?_dropWhile (s : List Char) : ∀ c ∈ (s.dropWhile isBlank).head?, isBlank c = false := by
  intro c mem
  have stops := List.head?_dropWhile_not isBlank s
  rw [Option.mem_def.1 mem] at stops
  simpa using stops

theorem trim_append_blankTail (s : List Char) : trim s ++ blankTail s = dropBlanks s := by
  have whole : blankHead s ++ (trim s ++ blankTail s) = blankHead s ++ dropBlanks s := by
    rw [← List.append_assoc, head_core_tail]
    exact List.takeWhile_append_dropWhile.symm
  exact List.append_cancel_left whole

theorem blankHead_blank (s : List Char) : allBlank (blankHead s) = true := List.all_takeWhile

theorem blankTail_blank (s : List Char) : allBlank (blankTail s) = true :=
  allBlank_reverse List.all_takeWhile

/-- The parts that a text is cut into are margins and a core. -/
theorem margins_trim (s : List Char) : Margins (blankHead s) (trim s) (blankTail s) where
  leading_blank := blankHead_blank s
  trailing_blank := blankTail_blank s
  core_head := by
    intro c mem
    refine head?_dropWhile s c ?_
    rw [← dropBlanks, ← trim_append_blankTail, List.head?_append, Option.mem_def.1 mem]
    rfl
  core_last := by
    rw [trim, dropBlanksEnd, List.getLast?_reverse]
    exact head?_dropWhile _
  all_leading := by
    intro empty
    have same := trim_append_blankTail s
    rw [empty, List.nil_append] at same
    cases tail : blankTail s with
    | nil => rfl
    | cons c rest =>
      -- what is left behind the blanks in front cannot begin with one, nor be blank
      have blank := List.all_eq_true.1 (blankTail_blank s) c (by simp [tail])
      have plain := head?_dropWhile s c (by rw [← dropBlanks, ← same, tail]; rfl)
      rw [blank] at plain
      cases plain

theorem infix_trim (s : List Char) : trim s <:+: s :=
  ⟨blankHead s, blankTail s, head_core_tail s⟩

/-- Every text is a core between margins. -/
theorem exists_margins (s : List Char) :
    ∃ leading core trailing, Margins leading core trailing ∧ s = leading ++ (core ++ trailing) :=
  ⟨_, _, _, margins_trim s, by rw [← List.append_assoc, head_core_tail]⟩

/-- Blanks in front of a text are trimmed. -/
theorem trim_append {blanks : List Char} (blank : allBlank blanks = true) (s : List Char) :
    trim (blanks ++ s) = trim s := by
  rw [trim, trim, dropBlanks, List.dropWhile_append_of_pos (List.all_eq_true.1 blank)]
  rfl

end StyleModule.Text
