import StyleModule.Proofs.Text.Margins

/-!
# Runs of blanks

Two texts are the same up to runs of blanks where squeezing each run to one space makes them the
same. A character that is no blank separates runs, so texts around it are squeezed on their own
(`squeeze_append_cons`), and squeezing takes no such character away.
-/

namespace StyleModule.Text

/-- A text with each run of blanks as one space, behind a blank or not. -/
def squeezeFrom : Bool → List Char → List Char
  | _, [] => []
  | behind, c :: s =>
    if isBlank c then (if behind then squeezeFrom true s else ' ' :: squeezeFrom true s)
    else c :: squeezeFrom false s

/-- A text with each run of blanks as one space. -/
def squeeze (s : List Char) : List Char := squeezeFrom false s

/-- The characters of a text that are no blanks. -/
def dark (s : List Char) : List Char := s.filter fun c => !isBlank c

theorem dark_append (s t : List Char) : dark (s ++ t) = dark s ++ dark t := List.filter_append ..

theorem dark_perm {s t : List Char} (h : s.Perm t) : (dark s).Perm (dark t) := h.filter _

theorem dark_of_allBlank {s : List Char} (blank : allBlank s = true) : dark s = [] := by
  apply List.filter_eq_nil_iff.2
  intro c mem
  simp [List.all_eq_true.1 blank c mem]

theorem dark_trim (s : List Char) : dark (trim s) = dark s := by
  have parts := congrArg dark (head_core_tail s)
  have head : dark (blankHead s) = [] := dark_of_allBlank (blankHead_blank s)
  rwa [dark_append, dark_append, head, dark_of_allBlank (blankTail_blank s), List.nil_append,
    List.append_nil] at parts

theorem squeezeFrom_append_cons {c : Char} (plain : isBlank c = false) (s t : List Char)
    (behind : Bool) :
    squeezeFrom behind (s ++ c :: t) = squeezeFrom behind s ++ c :: squeeze t := by
  induction s generalizing behind with
  | nil =>
    show squeezeFrom behind (c :: t) = c :: squeeze t
    rw [squeezeFrom, plain]
    rfl
  | cons d s ih =>
    rw [List.cons_append, squeezeFrom, squeezeFrom, ih, ih]
    cases isBlank d <;> cases behind <;> rfl

/-- On either side of a character that is no blank, a text is squeezed on its own. -/
theorem squeeze_append_cons {c : Char} (plain : isBlank c = false) (s t : List Char) :
    squeeze (s ++ c :: t) = squeeze s ++ c :: squeeze t :=
  squeezeFrom_append_cons plain s t false

theorem dark_squeezeFrom (s : List Char) (behind : Bool) :
    dark (squeezeFrom behind s) = dark s := by
  induction s generalizing behind with
  | nil => rfl
  | cons c s ih =>
    rw [squeezeFrom]
    cases blank : isBlank c with
    | true =>
      have skipped : dark (c :: s) = dark s := List.filter_cons_of_neg (by simp [blank])
      rw [skipped]
      cases behind with
      | true => exact ih true
      | false => exact (List.filter_cons_of_neg (by decide)).trans (ih true)
    | false =>
      have taken : ∀ t, dark (c :: t) = c :: dark t :=
        fun t => List.filter_cons_of_pos (by simp [blank])
      rw [taken, if_neg Bool.false_ne_true, taken, ih]

/-- Squeezing takes no character away but blanks. -/
theorem dark_squeeze (s : List Char) : dark (squeeze s) = dark s := dark_squeezeFrom s false

theorem mem_of_mem_squeeze {c : Char} (plain : isBlank c = false) {s : List Char}
    (h : c ∈ squeeze s) : c ∈ s := by
  have kept : c ∈ dark (squeeze s) := List.mem_filter.2 ⟨h, by simp [plain]⟩
  rw [dark_squeeze] at kept
  exact (List.mem_filter.1 kept).1

/-- Two texts that a character follows for the first time are told apart by it. -/
theorem append_cons_inj {c : Char} {a b s t : List Char} (fresh : c ∉ a) (fresh' : c ∉ b)
    (h : a ++ c :: s = b ++ c :: t) : a = b ∧ s = t := by
  have cut : ∀ {x y : List Char}, c ∉ x → (x ++ c :: y).takeWhile (· ≠ c) = x := by
    intro x y fresh
    have goes : ∀ d ∈ x, decide (d ≠ c) = true := by
      intro d mem
      rw [decide_eq_true_iff]
      rintro rfl
      exact fresh mem
    rw [List.takeWhile_append_of_pos goes, List.takeWhile_cons_of_neg (by simp), List.append_nil]
  have same : a = b := by rw [← cut (y := s) fresh, h, cut fresh']
  subst same
  exact ⟨rfl, (List.cons.inj (List.append_cancel_left h)).2⟩

/-- A word stands around a sign that a text holds once just where its parts stand on either side. -/
theorem infix_around_iff {sign : Char} {a b p q : List Char} (freshA : sign ∉ a) (freshB : sign ∉ b)
    (freshP : sign ∉ p) : p ++ sign :: q <:+: a ++ sign :: b ↔ p <:+ a ∧ q <+: b := by
  constructor
  · rintro ⟨x, y, split⟩
    have counted := congrArg (List.count sign) split
    simp only [List.count_append, List.count_cons_self, List.count_eq_zero.2 freshA,
      List.count_eq_zero.2 freshB, List.count_eq_zero.2 freshP] at counted
    have freshX : sign ∉ x ++ p := by
      rw [List.mem_append, not_or]
      exact ⟨List.count_eq_zero.1 (by omega), freshP⟩
    have whole : x ++ p ++ sign :: (q ++ y) = a ++ sign :: b := by simpa using split
    obtain ⟨rfl, rfl⟩ := append_cons_inj freshX freshA whole
    exact ⟨List.suffix_append x p, List.prefix_append q y⟩
  · rintro ⟨⟨x, rfl⟩, ⟨y, rfl⟩⟩
    exact ⟨x, y, by simp⟩

/-- A word without a sign does not reach over it. -/
theorem prefix_append_cons_iff {sign : Char} {word a s : List Char} (fresh : sign ∉ word) :
    word <+: a ++ sign :: s ↔ word <+: a := by
  refine ⟨fun begins => ?_, fun begins => begins.trans (List.prefix_append a _)⟩
  rcases List.prefix_or_prefix_of_prefix begins (List.prefix_append a (sign :: s)) with
    within | ⟨t, rfl⟩
  · exact within
  · cases t with
    | nil => exact ⟨[], by simp⟩
    | cons c t =>
      obtain ⟨same, _⟩ := List.cons_prefix_cons.1 ((List.prefix_append_right_inj a).1 begins)
      exact absurd (by simp [same]) fresh

end StyleModule.Text
