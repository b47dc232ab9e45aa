import StyleModule.Proofs.Path.Leading
import StyleModule.Proofs.Specifier.Parts

/-!
# Specifiers that are read as paths

A module loader reads a specifier as a path where it is `.` or `..`, or begins with one of them and
a slash, and as the name of a package otherwise. A way that does not begin with a dot is written
with `./` in front. A way that begins with one is left as it is, though the dot may belong to the
name of an entry: so the way to what lies in an entry with such a name is read as a package
(`specifier_explicit_iff`), and no other way is.
-/

namespace StyleModule

/-- A specifier that is read as a path. -/
def Explicit (s : List Char) : Prop :=
  s = ['.'] ∨ s = ['.', '.'] ∨ ['.', '/'] <+: s ∨ ['.', '.', '/'] <+: s

namespace Path

/-- The name of an entry that begins with a dot. A name in which one or two dots are followed by a
backslash is none: in a specifier the backslash is a slash, and what is in front of it a step. -/
def DotName (entry : List Char) : Prop :=
  entry.head? = some '.' ∧ ¬ ['.', '\\'] <+: entry ∧ ¬ ['.', '.', '\\'] <+: entry

instance (entry : List Char) : Decidable (DotName entry) := inferInstanceAs (Decidable (_ ∧ _))

/-- A character as it is written in a specifier. -/
def slash (c : Char) : Char := if c = '\\' then '/' else c

theorem slashed_eq_map (p : Path) : p.slashed = p.text.toList.map slash := rfl

/-- A dot in front of an entry's name stands in front of the way: the way is read as a path just
where dots and a backslash of the name make a step. -/
theorem explicit_map_slash_iff {entry : List Char} (isEntry : IsEntry entry)
    (dot : entry.head? = some '.') (tail : List Char) :
    Explicit ((entry ++ tail).map slash) ↔ ¬ DotName entry := by
  obtain ⟨s, rfl⟩ := List.head?_eq_some_iff.1 dot
  cases s with
  | nil => exact absurd isEntry.busy (by decide)
  | cons c s =>
    have unbroken := isEntry.unbroken
    by_cases step : c = '\\'
    · subst step
      simp [Explicit, DotName, slash]
    by_cases up : c = '.'
    · subst up
      cases s with
      | nil => exact absurd rfl isEntry.not_up
      | cons d s =>
        by_cases step : d = '\\'
        · subst step
          simp [Explicit, DotName, slash]
        · have other : '/' ≠ d := fun same => unbroken (by simp [← same])
          simp [Explicit, DotName, slash, step, other, Ne.symm step]
    · have other : '/' ≠ c := fun same => unbroken (by simp [← same])
      simp [Explicit, DotName, slash, step, up, other, Ne.symm step, Ne.symm up]

theorem head?_map_slash_ne {entry : List Char} (isEntry : IsEntry entry)
    (other : entry.head? ≠ some '.') (tail : List Char) :
    ((entry ++ tail).map slash).head? ≠ some '.' := by
  cases entry with
  | nil => exact absurd isEntry.busy (by decide)
  | cons c s =>
    have dotless : c ≠ '.' := fun same => other (congrArg some same)
    simp only [List.cons_append, List.map_cons, List.head?_cons, slash]
    split
    · decide
    · exact fun same => dotless (Option.some.inj same)

end Path

namespace Reference

variable {r : Reference}

/-- A way is read as a path, unless it leads to or through an entry of the importing file's
directory with a dot name. -/
theorem explicit_way_iff (absolute : r.importee.isAbsolute = true) :
    Explicit r.way.toList ↔ ∀ entry moves,
      r.importee.canonical.moves = r.importer.directory.canonical.moves ++ .name entry :: moves →
        ¬ Path.DotName entry := by
  have leading := Path.leading_relative r.importer.directory absolute
  rw [toList_way, Path.slashed_eq_map]
  generalize (r.importer.directory.relative r.importee).text.toList = s at leading
  cases leading with
  | same here =>
    refine iff_of_true (.inl rfl) fun entry moves under => ?_
    rw [here, List.self_eq_append_right] at under
    cases under
  | @below entry tail moves under isEntry _ =>
    have only : (∀ entry' moves', r.importee.canonical.moves =
        r.importer.directory.canonical.moves ++ .name entry' :: moves' → ¬ Path.DotName entry') ↔
          ¬ Path.DotName entry := by
      refine ⟨fun all => all entry moves under, fun other entry' moves' under' => ?_⟩
      rw [under] at under'
      cases List.append_cancel_left under'
      exact other
    rw [only]
    by_cases dot : entry.head? = some '.'
    · have first : ((entry ++ tail).map Path.slash).head? = some '.' := by
        obtain ⟨t, rfl⟩ := List.head?_eq_some_iff.1 dot
        rfl
      rw [if_pos first]
      exact Path.explicit_map_slash_iff isEntry dot tail
    · have first : ((entry ++ tail).map Path.slash).head? ≠ some '.' :=
        Path.head?_map_slash_ne isEntry dot tail
      rw [if_neg first]
      exact iff_of_true (.inr (.inr (.inl ⟨_, rfl⟩))) fun name => dot name.1
  | @above tail outside ends =>
    have explicit : Explicit (('.' :: '.' :: tail).map Path.slash) := by
      rcases ends with rfl | root
      · exact .inr (.inl rfl)
      · obtain ⟨t, rfl⟩ := List.head?_eq_some_iff.1 root
        exact .inr (.inr (.inr ⟨t.map Path.slash, rfl⟩))
    refine iff_of_true explicit fun entry moves under => absurd ?_ outside
    rw [under]
    exact List.prefix_append _ _
  | apart outside =>
    refine iff_of_true (.inr (.inr (.inl ⟨_, rfl⟩))) fun entry moves under => ?_
    exact absurd ⟨entry, moves, under⟩ outside

/-- A specifier is its way, with the query of the tag behind it if there is one; and the way to a
path from the root is read as a path just where it does not begin in an entry with a dot name, of
the importing file's own directory. -/
theorem specifier_explicit_iff (absolute : r.importee.isAbsolute = true) :
    (r.tag = none → r.specifier = r.way) ∧
    (∀ tag, r.tag = some tag → r.specifier.toList = r.way.toList ++ '?' :: r.queryText tag) ∧
    (Explicit r.way.toList ↔ ∀ entry moves,
      r.importee.canonical.moves = r.importer.directory.canonical.moves ++ .name entry :: moves →
        ¬ Path.DotName entry) :=
  ⟨specifier_of_untagged, fun _ tagged => toList_specifier tagged, explicit_way_iff absolute⟩

/-- The neighbour of a file, with a dot name: its specifier is read as the name of a package. -/
theorem specifier_explicit_dot :
    let r : Reference := ⟨⟨"/d/.x.css"⟩, ⟨"/d/main.css"⟩, none, .none, none⟩
    r.importee.isAbsolute = true ∧ r.specifier = ".x.css" ∧ ¬ Explicit r.way.toList := by
  intro r
  have absolute : r.importee.isAbsolute = true := by decide
  refine ⟨absolute, by decide +kernel, fun explicit => ?_⟩
  have plain := (specifier_explicit_iff absolute).2.2.1 explicit ".x.css".toList []
    (by decide +kernel)
  exact plain (by decide)

end Reference

end StyleModule
