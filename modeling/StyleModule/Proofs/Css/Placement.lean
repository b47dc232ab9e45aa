import StyleModule.Proofs.Css.Classes
import StyleModule.Proofs.Css.Outside

/-!
# Where the class of a scope goes

A selector in which no host element and no slotted content is spoken of gets the scope's own class
at one place (`ClassPlace`), which is the only one of its kind (`ClassPlace.unique`): in front of the
first colon outside brackets behind the last combinator outside brackets, or at the end where there
is no such colon.

Brackets, combinators and colons count there whatever they stand in. A reader of selectors sees
fewer of them: a backslash takes the next character along, and in a string nothing but its closing
quote counts. So the place may be inside an escape or a string. `scopeComplex_splits_iff` says when
it is (`Misled`); it never is where all colons outside brackets are seen and the selector is whole
(`Unhidden`).
-/

namespace StyleModule.Css

/-! ## Reading a selector -/

/-- What a reader of a selector is in the middle of: nothing, an escape, a string, or an escape in a
string. -/
inductive Midst where
  | nothing
  | escape
  | string (quote : Char)
  | stringEscape (quote : Char)
  deriving DecidableEq, Repr

/-- What a reader is in the middle of after one more character. -/
def Midst.next : Midst → Char → Midst
  | .nothing, c =>
    if c = '\\' then .escape else if c = '"' ∨ c = '\'' then .string c else .nothing
  | .escape, _ => .nothing
  | .string quote, c =>
    if c = '\\' then .stringEscape quote else if c = quote then .nothing else .string quote
  | .stringEscape quote, _ => .string quote

/-- What a reader is in the middle of at the end of a text. -/
def midst (s : List Char) : Midst := s.foldl Midst.next .nothing

/-- A text at whose end neither an escape nor a string is open. -/
def Whole (s : List Char) : Prop := midst s = .nothing

instance (s : List Char) : Decidable (Whole s) := inferInstanceAs (Decidable (_ = _))

/-- Behind a whole text, and another whole text put there, all is read as it was. -/
theorem midst_insert {before inserted : List Char} (whole : Whole before)
    (insertion : Whole inserted) (after : List Char) :
    midst (before ++ (inserted ++ after)) = midst (before ++ after) := by
  rw [Whole, midst] at whole insertion
  rw [midst, midst, List.foldl_append, List.foldl_append, List.foldl_append, whole, insertion]

/-! ## The place -/

/-- The beginning of a compound: that of the selector, or a combinator outside brackets. -/
inductive CompoundStart : List Char → Prop
  | nil : CompoundStart []
  | combinator {before : List Char} {c : Char} (outside : bracketsThrough 0 before = 0)
      (sign : isCombinator c = true) : CompoundStart (before ++ [c])

/-- The place of a class: in front of the first colon of the last compound, or behind a last
compound without a colon. -/
inductive ClassPlace : List Char → List Char → Prop
  | colon {front compound rest : List Char} (start : CompoundStart front)
      (last : hasOutside isCombinator 0 (compound ++ ':' :: rest) = false)
      (first : hasOutside isColon 0 compound = false) (outside : bracketsThrough 0 compound = 0) :
      ClassPlace (front ++ compound) (':' :: rest)
  | ending {front compound : List Char} (start : CompoundStart front)
      (last : hasOutside isCombinator 0 compound = false)
      (none : hasOutside isColon 0 compound = false) : ClassPlace (front ++ compound) []

/-- A selector with a class in its last compound. -/
def insertClass (name s : List Char) : List Char :=
  (lastCompound s).1 ++ addClass name 0 (lastCompound s).2

theorem CompoundStart.outside {front : List Char} (start : CompoundStart front) :
    bracketsThrough 0 front = 0 := by
  cases start with
  | nil => rfl
  | combinator outside sign =>
    rw [bracketsThrough_append, outside]
    exact bracketsAfter_plain (isPlain_of_isCombinator sign) 0

theorem CompoundStart.lastCompound {front compound : List Char} (start : CompoundStart front)
    (last : hasOutside isCombinator 0 compound = false) :
    Css.lastCompound (front ++ compound) = (front, compound) := by
  cases start with
  | nil => rw [List.nil_append, Css.lastCompound, cutLastCompound_eq_none_iff.2 last]; rfl
  | combinator outside sign =>
    rw [List.append_assoc, List.singleton_append, Css.lastCompound,
      cutLastCompound_combinator outside sign last]
    rfl

/-- A class is put in its place. -/
theorem ClassPlace.insertClass {before after : List Char} (place : ClassPlace before after)
    (name : List Char) : Css.insertClass name (before ++ after) = before ++ (name ++ after) := by
  cases place with
  | colon start last first outside =>
    rw [List.append_assoc, Css.insertClass, start.lastCompound last, addClass_append first,
      outside, addClass_colon, List.append_assoc]
  | ending start last none =>
    rw [List.append_nil, Css.insertClass, start.lastCompound last, addClass_of_noColon none,
      List.append_nil, List.append_assoc]

theorem exists_compoundStart (s : List Char) : ∃ front compound, front ++ compound = s ∧
    CompoundStart front ∧ hasOutside isCombinator 0 compound = false := by
  rcases cutLastCompound_cases 0 s with last | ⟨before, c, compound, rfl, outside, sign, last⟩
  · exact ⟨[], s, rfl, .nil, last⟩
  · exact ⟨before ++ [c], compound, by simp, .combinator outside sign, last⟩

/-- Every selector has a place for a class. -/
theorem exists_classPlace (s : List Char) :
    ∃ before after, before ++ after = s ∧ ClassPlace before after := by
  obtain ⟨front, compound, rfl, start, last⟩ := exists_compoundStart s
  rcases colon_cases 0 compound with none | ⟨before, rest, rfl, first, outside⟩
  · exact ⟨front ++ compound, [], List.append_nil _, .ending start last none⟩
  · exact ⟨front ++ before, ':' :: rest, List.append_assoc .., .colon start last first outside⟩

/-- Two places where every class is put are no distance apart. -/
theorem eq_nil_of_insert {between after : List Char}
    (same : ∀ name : List Char, name ++ (between ++ after) = between ++ (name ++ after)) :
    between = [] := by
  cases between with
  | nil => rfl
  | cons c between =>
    have isA := (List.cons.inj (same ['a'])).1
    have isB := (List.cons.inj (same ['b'])).1
    rw [← isA] at isB
    cases isB

/-- There is only one place for a class. -/
theorem ClassPlace.unique {before after before' after' : List Char}
    (place : ClassPlace before after) (place' : ClassPlace before' after')
    (same : before ++ after = before' ++ after') : before = before' := by
  have inserted : ∀ name : List Char, before ++ (name ++ after) = before' ++ (name ++ after') := by
    intro name
    rw [← place.insertClass, ← place'.insertClass, same]
  rcases List.append_eq_append_iff.1 same with ⟨between, rfl, rfl⟩ | ⟨between, rfl, rfl⟩
  · have none : between = [] := eq_nil_of_insert fun name => by
      have here := inserted name
      rw [List.append_assoc] at here
      exact List.append_cancel_left here
    rw [none, List.append_nil]
  · have none : between = [] := eq_nil_of_insert fun name => by
      have here := inserted name
      rw [List.append_assoc] at here
      exact (List.append_cancel_left here).symm
    rw [none, List.append_nil]

/-- In front of the last compound nothing changes. -/
theorem insertClass_combinator {a : List Char} {c : Char} (level : bracketsThrough 0 a = 0)
    (sign : isCombinator c = true) (name s : List Char) :
    insertClass name (a ++ c :: s) = a ++ c :: insertClass name s := by
  rw [insertClass, lastCompound_combinator level sign, insertClass, List.append_assoc,
    List.cons_append]

/-- No class is put in front of a character that is neither a bracket nor a colon. -/
theorem insertClass_cons {c : Char} (plain : isPlain c = true) (other : isColon c = false)
    (name s : List Char) : insertClass name (c :: s) = c :: insertClass name s := by
  by_cases sign : isCombinator c = true
  · exact insertClass_combinator (a := []) rfl sign name s
  · have noColon : ¬ (0 = 0 ∧ c = ':') := fun h => by simp [isColon, h.2] at other
    rw [insertClass, insertClass, lastCompound, lastCompound, cutLastCompound,
      bracketsAfter_plain plain]
    cases cutLastCompound 0 s with
    | none =>
      simp only [sign, Bool.false_eq_true, and_false, if_false, Option.getD_none,
        List.nil_append]
      rw [addClass, if_neg noColon, bracketsAfter_plain plain]
    | some cut => rfl

theorem insertClass_append {a : List Char} (plain : ∀ c ∈ a, isPlain c = true ∧ isColon c = false)
    (name s : List Char) : insertClass name (a ++ s) = a ++ insertClass name s := by
  induction a with
  | nil => rfl
  | cons c a ih =>
    obtain ⟨here, later⟩ := List.forall_mem_cons.1 plain
    rw [List.cons_append, insertClass_cons here.1 here.2, ih later, List.cons_append]

/-! ## Splitting -/

/-- A selector whose place for a class is inside an escape or a string. -/
def Misled (s : List Char) : Prop :=
  ∃ before after, before ++ after = s ∧ ClassPlace before after ∧ ¬ Whole before

/-- A whole selector of which a reader sees every colon outside brackets: none of these is escaped,
and none is in a string. -/
def Unhidden (s : List Char) : Prop :=
  Whole s ∧ ∀ before rest, before ++ ':' :: rest = s → bracketsThrough 0 before = 0 → Whole before

theorem ClassPlace.whole {before after : List Char} (place : ClassPlace before after)
    (unhidden : Unhidden (before ++ after)) : Whole before := by
  cases place with
  | colon start last first outside =>
    refine unhidden.2 _ _ rfl ?_
    rw [bracketsThrough_append, start.outside, outside]
  | ending start last none =>
    have whole := unhidden.1
    rwa [List.append_nil] at whole

/-- A selector without marks gets the class of the scope where a class goes. -/
theorem scopeComplex_eq_insertClass (scope : List Char) {s : List Char} (markless : Markless s) :
    scopeComplex scope s = insertClass (ownClass scope) s := by
  rw [scopeComplex, markless.2, if_neg Bool.false_ne_true, scopeUnslotted_eq, markless.1,
    Bool.false_and, if_neg Bool.false_ne_true, replaceHost_eq_self markless.1]
  rfl

/-- Scoping a selector without marks puts the class of the scope into one place. It splits a token
of the selector just where the selector is misled about the place, which it is not where no colon is
hidden; and where it splits none, all is read as it was. -/
theorem scopeComplex_splits_iff (scope : List Char) {s : List Char} (markless : Markless s) :
    ∃ before after, before ++ after = s ∧
      scopeComplex scope s = before ++ (ownClass scope ++ after) ∧
      (¬ Whole before ↔ Misled s) ∧ (Unhidden s → Whole before) ∧
      (Whole before → Whole (ownClass scope) → ∀ part, part <+: after →
        midst (before ++ (ownClass scope ++ part)) = midst (before ++ part)) := by
  obtain ⟨before, after, rfl, place⟩ := exists_classPlace s
  refine ⟨before, after, rfl, ?_, ⟨?_, ?_⟩, place.whole, ?_⟩
  · rw [scopeComplex_eq_insertClass scope markless, place.insertClass]
  · exact fun splits => ⟨before, after, rfl, place, splits⟩
  · rintro ⟨before', after', same, place', splits⟩
    rwa [place.unique place' same.symm]
  · exact fun whole insertion part _ => midst_insert whole insertion part

/-- A class with an escaped colon in its name is split. -/
theorem scopeComplex_splits_escape :
    Markless ".sm\\:flex".toList ∧ Misled ".sm\\:flex".toList ∧
      scopeComplex "sc-x".toList ".sm\\:flex".toList = ".sm\\.sc-x:flex".toList ∧
      ∃ before after, before ++ after = ".sm\\:flex".toList ∧
        scopeComplex "sc-x".toList ".sm\\:flex".toList =
          before ++ (ownClass "sc-x".toList ++ after) ∧ ¬ Whole before := by
  have markless : Markless ".sm\\:flex".toList := ⟨by decide, by decide⟩
  have place : ClassPlace ([] ++ ".sm\\".toList) (':' :: "flex".toList) :=
    .colon .nil (by decide) (by decide) (by decide)
  have misled : Misled ".sm\\:flex".toList := ⟨_, _, by decide, place, by decide⟩
  obtain ⟨before, after, whole, inserted, splits, _⟩ :=
    scopeComplex_splits_iff "sc-x".toList markless
  exact ⟨markless, misled, by decide +kernel, before, after, whole, inserted, splits.2 misled⟩

/-- A colon in a string goes unseen where brackets are around the string, and none is in it. -/
example : scopeComplex "s".toList "[title=\"a:b\"]".toList = "[title=\"a:b\"].s".toList ∧
    scopeComplex "s".toList "[title=\"a]:b\"]".toList = "[title=\"a].s:b\"]".toList := by
  decide +kernel

end StyleModule.Css
