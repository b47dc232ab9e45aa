import StyleModule.Proofs.Name.Words

/-!
# Settled names

An identifier is turned into itself: making one of an identifier again changes nothing
(`toIdentifier_idempotent`). The names that stay as they are have three looks, and `Settled` says
which; they are just the names that something is turned into.

The second time, an identifier is read as words again. It is cut in front of each of its capitals
and digits, and loses an underscore in front; running the words together restores the capitals, and
the underscore is put back for the reason it was there. Nothing is asked of letter case outside
ASCII, since an identifier is within it.
-/

namespace StyleModule.Name

/-- A name that an identifier is made of as it is: no name at all; letters and digits that begin
with a small letter and are no keyword; or an underscore in front of letters and digits that begin
with a digit, or in front of a keyword. -/
inductive Settled : List Char → Prop
  | nothing : Settled []
  | bare {c : Char} {s : List Char} (small : c.isLower = true)
      (rest : ∀ d ∈ s, d.isAlphanum = true) (free : String.ofList (c :: s) ∉ keywords) :
      Settled (c :: s)
  | numeral {c : Char} {s : List Char} (digit : c.isDigit = true)
      (rest : ∀ d ∈ s, d.isAlphanum = true) : Settled ('_' :: c :: s)
  | keyword {word : String} (kept : word ∈ keywords) : Settled ('_' :: word.toList)

/-! ## Letters and digits read as a name -/

variable {w : List Char}

/-- The first letter is a small one in the end, whether or not it was a capital before. -/
theorem uncapitalize_raised_of_alphanum (alphanum : ∀ c ∈ w, c.isAlphanum = true) :
    uncapitalize (raised w) = uncapitalize w := by
  cases w with
  | nil => rfl
  | cons c s =>
    have small : c.toUpper.toLower = c.toLower :=
      of_isAlphanum (by decide) (alphanum c List.mem_cons_self)
    rw [raised, uncapitalize, small, uncapitalize]

/-- Letters and digits keep all but the case of the first, in whatever way marks stand in front. -/
theorem identifierOf_gap_append {gap : List Char} (marks : gap ⊆ gapMarks)
    (alphanum : ∀ c ∈ w, c.isAlphanum = true) :
    identifierOf (gap ++ w) = protect (uncapitalize w) := by
  have separates : ∀ c ∈ gap, isSeparator c = true := fun c mem =>
    isSeparator_of_mem_gapMarks c (marks mem)
  have inside : ∀ c ∈ gap ++ w, c.isAlphanum = true ∨ c ∈ gapMarks := fun c mem =>
    (List.mem_append.1 mem).elim (fun mem => .inr (marks mem)) fun mem => .inl (alphanum c mem)
  have unmarked : ∀ c ∈ ([] : List Char).head?, c ∈ tailMarks := by rintro _ ⟨⟩
  have words := joinWords_wordsOf inside unmarked
  rw [List.append_nil, spaced_append, spaced_gap marks, runTogether_gap_append separates,
    runTogether_spaced alphanum] at words
  rw [identifierOf, words, List.filter_eq_self.2 (isAlphanum_of_mem_raised alphanum),
    uncapitalize_raised_of_alphanum alphanum]

theorem identifierOf_of_alphanum (alphanum : ∀ c ∈ w, c.isAlphanum = true) :
    identifierOf w = protect (uncapitalize w) := by
  have unmarked := identifierOf_gap_append (List.nil_subset gapMarks) alphanum
  rwa [List.nil_append] at unmarked

theorem identifierOf_underscore (alphanum : ∀ c ∈ w, c.isAlphanum = true) :
    identifierOf ('_' :: w) = protect (uncapitalize w) := by
  have underscore : ['_'] ⊆ gapMarks := List.cons_subset.2 ⟨by decide, List.nil_subset _⟩
  have marked := identifierOf_gap_append underscore alphanum
  rwa [List.singleton_append] at marked

/-! ## Settled names -/

/-- A keyword is written in small letters. -/
theorem keyword_plain : ∀ k ∈ keywords, ∀ c ∈ k.toList, c.isLower = true := by
  have table : (keywords.all fun k => k.toList.all Char.isLower) = true := by decide
  simpa using table

theorem uncapitalize_plain {c : Char} (plain : isPlain c = true) (s : List Char) :
    uncapitalize (c :: s) = c :: s := by
  rw [uncapitalize, (toLower_of_isPlain plain).1]

theorem uncapitalize_keyword {word : String} (kept : word ∈ keywords) :
    uncapitalize word.toList = word.toList := by
  cases letters : word.toList with
  | nil => rfl
  | cons c s =>
    have small : c.isLower = true :=
      keyword_plain word kept c (letters ▸ List.mem_cons_self)
    exact uncapitalize_plain (isPlain_of_isLower small) s

/-- Whatever is made of letters and digits is settled. -/
theorem settled_protect (alphanum : ∀ c ∈ w, c.isAlphanum = true) :
    Settled (protect (uncapitalize w)) := by
  cases w with
  | nil => exact .nothing
  | cons c s =>
    have rest : ∀ d ∈ s, d.isAlphanum = true := fun d mem => alphanum d (List.mem_cons_of_mem c mem)
    rw [uncapitalize, protect_eq]
    split
    next taken =>
      rcases taken with digit | kept
      · exact .numeral digit rest
      · have underscored := Settled.keyword kept
        rwa [String.toList_ofList] at underscored
    next free =>
      obtain ⟨letter, free⟩ := not_or.1 free
      have small := (toLower_of_isAlphanum (alphanum c List.mem_cons_self)).resolve_right letter
      exact .bare small rest free

theorem settled_identifierOf (s : List Char) : Settled (identifierOf s) :=
  settled_protect fun _ mem => (List.mem_filter.1 mem).2

/-- A settled name stays as it is. -/
theorem Settled.identifierOf_eq (h : Settled w) : identifierOf w = w := by
  cases h with
  | nothing => rfl
  | @bare c s small rest free =>
    have plain : isPlain c = true := isPlain_of_isLower small
    have alphanum : ∀ d ∈ c :: s, d.isAlphanum = true :=
      List.forall_mem_cons.2 ⟨isAlphanum_of_isPlain plain, rest⟩
    have unprotected :
        ¬ ((c :: s).head?.any Char.isDigit = true ∨ String.ofList (c :: s) ∈ keywords) :=
      not_or.2 ⟨by simp [not_isDigit_of_isLower small], free⟩
    rw [identifierOf_of_alphanum alphanum, uncapitalize_plain plain, protect_eq, if_neg unprotected]
  | @numeral c s digit rest =>
    have plain : isPlain c = true := isPlain_of_isDigit digit
    have alphanum : ∀ d ∈ c :: s, d.isAlphanum = true :=
      List.forall_mem_cons.2 ⟨isAlphanum_of_isPlain plain, rest⟩
    rw [identifierOf_underscore alphanum, uncapitalize_plain plain, protect_eq]
    exact if_pos (.inl digit)
  | @keyword word kept =>
    have alphanum : ∀ c ∈ word.toList, c.isAlphanum = true := fun c mem =>
      isAlphanum_of_isPlain (isPlain_of_isLower (keyword_plain word kept c mem))
    have taken : String.ofList word.toList ∈ keywords := by rwa [String.ofList_toList]
    rw [identifierOf_underscore alphanum, uncapitalize_keyword kept, protect_eq,
      if_pos (.inr taken)]

/-- The settled names are those that stay as they are. -/
theorem identifierOf_eq_self_iff : identifierOf w = w ↔ Settled w :=
  ⟨fun same => same ▸ settled_identifierOf w, Settled.identifierOf_eq⟩

/-- Making an identifier of an identifier changes nothing. The names that stay as they are, and so
the names that identifiers are, are the settled ones. -/
theorem toIdentifier_idempotent (name : String) :
    toIdentifier (toIdentifier name) = toIdentifier name ∧
      (toIdentifier name = name ↔ Settled name.toList) := by
  constructor
  · rw [toIdentifier, toIdentifier, String.toList_ofList, (settled_identifierOf _).identifierOf_eq]
  · rw [toIdentifier, ← identifierOf_eq_self_iff, ← String.toList_inj, String.toList_ofList]

end StyleModule.Name
