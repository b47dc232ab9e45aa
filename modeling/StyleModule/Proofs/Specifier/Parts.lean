import StyleModule.Proofs.Text.Join
import StyleModule.Specifier

/-!
# The parts of a specifier

A specifier is the way to the imported file and, where the importing component has a tag, a query
behind a question mark. The way is written with what the relative path is written with, but for
backslashes, and with a dot and a slash where it does not begin with a dot. The entries of the query
are written with small letters and with what the tag and the mode are written with
(`forall_mem_query`).
-/

namespace StyleModule

theorem Path.mem_slashed {p : Path} {c : Char} (h : c ∈ p.slashed) :
    c ≠ '\\' ∧ (c = '/' ∨ c ∈ p.text.toList) := by
  obtain ⟨d, mem, rfl⟩ := List.mem_map.1 h
  split
  next => exact ⟨by decide, .inl rfl⟩
  next other => exact ⟨other, .inr mem⟩

namespace Reference

variable {r : Reference}

/-! ## The way -/

theorem toList_way (r : Reference) :
    r.way.toList = if (r.importer.directory.relative r.importee).slashed.head? = some '.' then
      (r.importer.directory.relative r.importee).slashed
    else '.' :: '/' :: (r.importer.directory.relative r.importee).slashed :=
  String.toList_ofList

/-- A way has no backslash in it. -/
theorem mem_way {c : Char} (h : c ∈ r.way.toList) :
    c ≠ '\\' ∧ (c = '.' ∨ c = '/' ∨
      c ∈ (r.importer.directory.relative r.importee).text.toList) := by
  rw [toList_way] at h
  split at h
  · exact (Path.mem_slashed h).imp_right .inr
  rcases List.mem_cons.1 h with rfl | h
  · exact ⟨by decide, .inl rfl⟩
  rcases List.mem_cons.1 h with rfl | h
  · exact ⟨by decide, .inr (.inl rfl)⟩
  · exact (Path.mem_slashed h).imp_right .inr

/-- What is neither a dot nor a slash of either kind stands in a way where it stands in the relative
path. -/
theorem mem_way_iff {c : Char} (notDot : c ≠ '.') (notSlash : c ≠ '/') (notBackslash : c ≠ '\\') :
    c ∈ r.way.toList ↔ c ∈ (r.importer.directory.relative r.importee).text.toList := by
  constructor
  · intro mem
    exact ((mem_way mem).2.resolve_left notDot).resolve_left notSlash
  · intro mem
    have slashed : c ∈ (r.importer.directory.relative r.importee).slashed :=
      List.mem_map.2 ⟨c, mem, if_neg notBackslash⟩
    rw [toList_way]
    split
    · exact slashed
    · exact List.mem_cons_of_mem _ (List.mem_cons_of_mem _ slashed)

/-! ## The query -/

/-- An entry of a query, as written. -/
def entryText (entry : String × String) : List Char := entry.1.toList ++ '=' :: entry.2.toList

/-- The query of a component with a tag, as written. -/
def queryText (r : Reference) (tag : String) : List Char :=
  ['&'].intercalate ((r.query tag).map entryText)

theorem mem_entryText {entry : String × String} {c : Char} (h : c ∈ entryText entry) :
    c = '=' ∨ c ∈ entry.1.toList ∨ c ∈ entry.2.toList := by
  rcases List.mem_append.1 h with h | h
  · exact .inr (.inl h)
  · exact (List.mem_cons.1 h).imp_right .inr

/-- A query is written with what its entries are written with, and `&`. -/
theorem mem_queryText {tag : String} {c : Char} (h : c ∈ r.queryText tag) :
    c = '&' ∨ ∃ entry ∈ r.query tag, c ∈ entryText entry := by
  rcases Text.mem_intercalate h with h | ⟨part, written, within⟩
  · exact .inl (List.mem_singleton.1 h)
  · obtain ⟨entry, asked, rfl⟩ := List.mem_map.1 written
    exact .inr ⟨entry, asked, within⟩

/-- Without a tag, a specifier is its way. -/
theorem specifier_of_untagged (untagged : r.tag = none) : r.specifier = r.way := by
  unfold specifier
  rw [untagged]

/-- With a tag, a specifier is its way, a question mark and its query. -/
theorem toList_specifier {tag : String} (tagged : r.tag = some tag) :
    r.specifier.toList = r.way.toList ++ '?' :: r.queryText tag := by
  have entry : ∀ entry : String × String,
      (entry.1 ++ "=" ++ entry.2).toList = entryText entry := by
    intro entry
    rw [String.toList_append, String.toList_append, List.append_assoc]
    rfl
  unfold specifier
  rw [tagged]
  dsimp only
  rw [String.toList_append, String.toList_append, String.toList_intercalate, List.map_map,
    List.append_assoc]
  exact congrArg (r.way.toList ++ '?' :: ['&'].intercalate ·)
    (List.map_congr_left fun e _ => entry e)

/-- What holds of the small letters, and of what a tag and a mode are written with, holds of what
the entries of their query are written with. -/
theorem forall_mem_query {P : Char → Prop} {tag : String}
    (letters : ∀ c, c.isLower = true → P c) (plainTag : ∀ c ∈ tag.toList, P c)
    (plainMode : ∀ mode ∈ specificMode r.mode, ∀ c ∈ mode.toList, P c) :
    ∀ entry ∈ r.query tag, (∀ c ∈ entry.1.toList, P c) ∧ ∀ c ∈ entry.2.toList, P c := by
  have word : ∀ {word : String}, (word.toList.all Char.isLower) = true → ∀ c ∈ word.toList, P c :=
    fun small c mem => letters c (List.all_eq_true.1 small c mem)
  intro entry mem
  rw [query, List.mem_append, List.mem_cons] at mem
  rcases mem with (rfl | mem) | mem
  · exact ⟨word (rfl : "tag".toList.all Char.isLower = true), plainTag⟩
  · split at mem
    next => cases mem
    next =>
      rw [List.mem_singleton.1 mem]
      refine ⟨word (rfl : "encapsulation".toList.all Char.isLower = true), word ?_⟩
      show r.encapsulation.name.toList.all Char.isLower = true
      cases r.encapsulation <;> rfl
  · obtain ⟨mode, named, rfl⟩ := List.mem_map.1 mem
    exact ⟨word (rfl : "mode".toList.all Char.isLower = true),
      plainMode mode (Option.mem_toList.1 named)⟩

end Reference

end StyleModule
