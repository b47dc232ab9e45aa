import StyleModule.Proofs.Path.Relative
import StyleModule.Proofs.Specifier.Parts
import StyleModule.Text.Search

/-!
# What is read from a query

A specifier is cut at its first question mark, and what is behind it split at `&` and `=`. With a
tag and a mode in which none of these signs stands, that gives back the way and what the component
is told, unless the name of an entry on the way has a question mark in it: the name is written as it
is, the cut falls into the way, and neither of the two is read (`specifier_query_iff`). Two
specifiers are the same text just where their ways are and the same is told, whatever the names on
the way are.
-/

namespace StyleModule

/-! ## Cutting and splitting -/

namespace Text

/-- A text is cut where a character stands for the first time. -/
theorem cut?_singleton {c : Char} {before : List Char} (fresh : c ∉ before) (rest : List Char) :
    cut? [c] (before ++ c :: rest) = some (before, rest) := by
  induction before with
  | nil => simp [cut?, after?]
  | cons d before ih =>
    obtain ⟨other, fresh⟩ := not_or.1 (mt List.mem_cons.2 fresh)
    rw [List.cons_append, cut?, after?, if_neg other, ih fresh]
    rfl

/-- Two texts that a character precedes for the last time are told apart by it. -/
theorem append_cons_inj_of_not_mem_right {c : Char} {a b s t : List Char} (fresh : c ∉ s)
    (fresh' : c ∉ t) (h : a ++ c :: s = b ++ c :: t) : a = b ∧ s = t := by
  have back := congrArg List.reverse h
  simp only [List.reverse_append, List.reverse_cons, List.append_assoc, List.singleton_append]
    at back
  obtain ⟨behind, front⟩ := append_cons_inj (fun mem => fresh (List.mem_reverse.1 mem))
    (fun mem => fresh' (List.mem_reverse.1 mem)) back
  exact ⟨List.reverse_inj.1 front, List.reverse_inj.1 behind⟩

end Text

/-- The signs by which a specifier is cut and its query split. -/
def isQuerySign (c : Char) : Bool := c == '?' || c == '&' || c == '='

/-- The entries of a query, and what stands in each around `=`. -/
def splitEntries (query : List Char) : List (List (List Char)) :=
  (query.splitOn '&').map (·.splitOn '=')

/-- The way and the entries of the query, as they are read from a specifier. -/
def readQuery (s : List Char) : Option (List Char × List (List (List Char))) :=
  (Text.cut? ['?'] s).map fun (way, query) => (way, splitEntries query)

/-- Splitting loses nothing. -/
theorem splitEntries_inj {s t : List Char} : splitEntries s = splitEntries t ↔ s = t := by
  have joined : ∀ s, ['&'].intercalate ((splitEntries s).map (['='].intercalate ·)) = s := by
    intro s
    have entries : (splitEntries s).map (['='].intercalate ·) = s.splitOn '&' := by
      rw [splitEntries, List.map_map]
      exact (List.map_congr_left fun _ _ => List.intercalate_splitOn '=').trans (List.map_id _)
    rw [entries, List.intercalate_splitOn]
  refine ⟨fun same => ?_, congrArg splitEntries⟩
  rw [← joined s, same, joined t]

theorem readQuery_of_not_mem {way : List Char} (unmarked : '?' ∉ way) (query : List Char) :
    readQuery (way ++ '?' :: query) = some (way, splitEntries query) := by
  rw [readQuery, Text.cut?_singleton unmarked]
  rfl

namespace Reference

variable {r r' : Reference} {tag tag' : String}

/-! ## What is told -/

/-- What is told, each thing with its key in front: the tag, the encapsulation if there is any, and
the mode if it is not the default. -/
def entries (r : Reference) (tag : String) : List (List (List Char)) :=
  [["tag".toList, tag.toList]] ++
    (if r.encapsulation = .none then []
      else [["encapsulation".toList, r.encapsulation.name.toList]]) ++
    (specificMode r.mode).toList.map fun mode => ["mode".toList, mode.toList]

/-- The entries of the query are what is told. -/
theorem map_query (r : Reference) (tag : String) :
    (r.query tag).map (fun entry => [entry.1.toList, entry.2.toList]) = r.entries tag := by
  unfold query entries
  rw [List.map_append, List.map_map, List.map_cons]
  split <;> rfl

/-- An import by a component with a tag, in whose tag and mode no query sign stands. -/
structure Tells (r : Reference) (tag : String) : Prop where
  tagged : r.tag = some tag
  plainTag : ∀ c ∈ tag.toList, isQuerySign c = false
  plainMode : ∀ mode ∈ specificMode r.mode, ∀ c ∈ mode.toList, isQuerySign c = false

/-- No query sign stands in the keys and the values. -/
theorem Tells.plain_query (h : r.Tells tag) : ∀ entry ∈ r.query tag,
    (∀ c ∈ entry.1.toList, isQuerySign c = false) ∧
      ∀ c ∈ entry.2.toList, isQuerySign c = false := by
  refine forall_mem_query (fun c lower => ?_) h.plainTag h.plainMode
  rw [← Bool.not_eq_true]
  intro sign
  have signs : c = '?' ∨ c = '&' ∨ c = '=' := by simpa [isQuerySign, or_assoc] using sign
  rcases signs with rfl | rfl | rfl <;> cases lower

/-- No other sign than `=` stands in an entry. -/
theorem Tells.sign_not_mem (h : r.Tells tag) {c : Char} (sign : isQuerySign c = true)
    (other : c ≠ '=') : ∀ entry ∈ r.query tag, c ∉ entryText entry := by
  intro entry asked within
  obtain ⟨key, value⟩ := h.plain_query entry asked
  have plain : isQuerySign c = false := by
    rcases (mem_entryText within).resolve_left other with within | within
    · exact key c within
    · exact value c within
  rw [plain] at sign
  cases sign

/-- The entries are read back from the query. -/
theorem Tells.splitEntries_queryText (h : r.Tells tag) :
    splitEntries (r.queryText tag) = r.entries tag := by
  have some : (r.query tag).map entryText ≠ [] := fun none => List.cons_ne_nil _ _ none
  have whole : ∀ part ∈ (r.query tag).map entryText, '&' ∉ part :=
    List.forall_mem_map.2 (h.sign_not_mem rfl (by decide))
  rw [splitEntries, queryText, List.splitOn_intercalate '&' whole some, List.map_map, ← map_query]
  apply List.map_congr_left
  intro entry asked
  obtain ⟨key, value⟩ := h.plain_query entry asked
  have unsplit : ∀ {s : List Char}, (∀ c ∈ s, isQuerySign c = false) → '=' ∉ s :=
    fun plain mem => Bool.noConfusion (plain '=' mem)
  show (entryText entry).splitOn '=' = _
  rw [entryText, List.splitOn_append_cons_self_of_not_mem (unsplit key),
    List.splitOn_eq_singleton (unsplit value)]

theorem Tells.mark_not_mem_queryText (h : r.Tells tag) : '?' ∉ r.queryText tag := by
  intro mem
  rcases mem_queryText mem with sign | ⟨entry, asked, within⟩
  · exact absurd sign (by decide)
  · exact h.sign_not_mem rfl (by decide) entry asked within

/-- What is told is found in the query under its key. -/
theorem lookup_query (r : Reference) (tag : String) :
    (r.query tag).lookup "tag" = some tag ∧
    (r.query tag).lookup "encapsulation" =
      (if r.encapsulation = .none then none else some r.encapsulation.name) ∧
    (r.query tag).lookup "mode" = specificMode r.mode := by
  unfold query
  cases r.encapsulation <;> cases specificMode r.mode <;> exact ⟨rfl, rfl, rfl⟩

/-- Different things that are told are different queries. -/
theorem query_eq_iff : r.query tag = r'.query tag' ↔ tag = tag' ∧
    r.encapsulation = r'.encapsulation ∧ specificMode r.mode = specificMode r'.mode := by
  constructor
  · intro same
    obtain ⟨ownTag, ownEncapsulation, ownMode⟩ := r.lookup_query tag
    obtain ⟨otherTag, otherEncapsulation, otherMode⟩ := r'.lookup_query tag'
    rw [same] at ownTag ownEncapsulation ownMode
    refine ⟨Option.some.inj (ownTag.symm.trans otherTag), ?_, ownMode.symm.trans otherMode⟩
    have told := ownEncapsulation.symm.trans otherEncapsulation
    revert told
    cases r.encapsulation <;> cases r'.encapsulation <;> decide
  · rintro ⟨rfl, encapsulation, mode⟩
    rw [query, query, encapsulation, mode]

theorem entries_inj : r.entries tag = r'.entries tag' ↔ r.query tag = r'.query tag' := by
  rw [← map_query, ← map_query]
  refine List.map_inj_right fun entry other told => ?_
  obtain ⟨key, rest⟩ := List.cons.inj told
  exact Prod.ext (String.toList_inj.1 key) (String.toList_inj.1 (List.cons.inj rest).1)

/-! ## What is read -/

/-- No file and no directory that is entered on the way has a question mark in its name. -/
def Unmarked (r : Reference) : Prop :=
  ∀ entry, .name entry ∈
    Path.wayBetween r.importer.directory.canonical.moves r.importee.canonical.moves → '?' ∉ entry

theorem unmarked_iff (absolute : r.importee.isAbsolute = true) :
    r.Unmarked ↔ '?' ∉ r.way.toList := by
  rw [mem_way_iff (by decide) (by decide) (by decide),
    Path.mem_relative_iff absolute (by decide) (by decide)]
  exact ⟨fun unmarked ⟨entry, passed, mem⟩ => unmarked entry passed mem,
    fun unmarked entry passed mem => unmarked ⟨entry, passed, mem⟩⟩

/-- A way and entries are read from a specifier, and each of the two is what was written just where
no name on the way has a question mark in it. -/
theorem Tells.readQuery_specifier (h : r.Tells tag) (absolute : r.importee.isAbsolute = true) :
    ∃ way entries, readQuery r.specifier.toList = some (way, entries) ∧
      (way = r.way.toList ↔ r.Unmarked) ∧ (entries = r.entries tag ↔ r.Unmarked) := by
  rw [toList_specifier h.tagged, unmarked_iff absolute]
  by_cases marked : '?' ∈ r.way.toList
  · obtain ⟨front, behind, way, unmarked⟩ := List.eq_append_cons_of_mem marked
    have whole : r.way.toList ++ '?' :: r.queryText tag =
        front ++ '?' :: (behind ++ '?' :: r.queryText tag) := by
      rw [way, List.append_assoc, List.cons_append]
    rw [whole]
    refine ⟨front, _, readQuery_of_not_mem unmarked _, ?_, ?_⟩
    · refine iff_of_false (fun same => unmarked ?_) (not_not_intro marked)
      rwa [same]
    · refine iff_of_false (fun same => ?_) (not_not_intro marked)
      rw [← h.splitEntries_queryText, splitEntries_inj] at same
      have longer := congrArg List.length same
      rw [List.length_append, List.length_cons] at longer
      omega
  · exact ⟨_, _, readQuery_of_not_mem marked _, iff_of_true rfl marked,
      iff_of_true h.splitEntries_queryText marked⟩

/-- Two specifiers are the same just where the ways are, and the same is told. -/
theorem Tells.specifier_eq_iff (h : r.Tells tag) (h' : r'.Tells tag') :
    r.specifier = r'.specifier ↔ r.way = r'.way ∧ tag = tag' ∧
      r.encapsulation = r'.encapsulation ∧ specificMode r.mode = specificMode r'.mode := by
  rw [← query_eq_iff, ← String.toList_inj, toList_specifier h.tagged, toList_specifier h'.tagged]
  constructor
  · intro same
    obtain ⟨way, query⟩ := Text.append_cons_inj_of_not_mem_right h.mark_not_mem_queryText
      h'.mark_not_mem_queryText same
    refine ⟨String.toList_inj.1 way, ?_⟩
    rw [← splitEntries_inj, h.splitEntries_queryText, h'.splitEntries_queryText] at query
    exact entries_inj.1 query
  · rintro ⟨way, query⟩
    rw [way, queryText, queryText, query]

/-- A specifier with a tag, cut at its first question mark and split at `&` and `=`, gives back the
specifier of the same paths without a tag just where no name on the way has a question mark in it,
and just there what the component is told. Two such specifiers are the same just where their ways
are, and the same is told. -/
theorem specifier_query_iff (told : r.Tells tag) (absolute : r.importee.isAbsolute = true) :
    (∃ way entries, readQuery r.specifier.toList = some (way, entries) ∧
      (way = ({ r with tag := none } : Reference).specifier.toList ↔ r.Unmarked) ∧
      (entries = r.entries tag ↔ r.Unmarked)) ∧
    ∀ (r' : Reference) (tag' : String), r'.Tells tag' →
      (r.specifier = r'.specifier ↔ r.way = r'.way ∧ tag = tag' ∧
        r.encapsulation = r'.encapsulation ∧ specificMode r.mode = specificMode r'.mode) := by
  have untagged : ({ r with tag := none } : Reference).specifier = r.way :=
    specifier_of_untagged rfl
  rw [untagged]
  exact ⟨told.readQuery_specifier absolute, fun _ _ told' => told.specifier_eq_iff told'⟩

/-- The neighbour of a file, with a query of its own in its name: neither the way nor what is told
is read from its specifier. -/
theorem specifier_query_marked :
    let r : Reference := ⟨⟨"/d/x.css?v=1"⟩, ⟨"/d/main.css"⟩, some "my-cmp", .none, none⟩
    r.Tells "my-cmp" ∧ r.importee.isAbsolute = true ∧ r.specifier = "./x.css?v=1?tag=my-cmp" ∧
      ∃ way entries, readQuery r.specifier.toList = some (way, entries) ∧
        way ≠ ({ r with tag := none } : Reference).specifier.toList ∧
        entries ≠ r.entries "my-cmp" := by
  intro r
  have told : r.Tells "my-cmp" := ⟨rfl, by simp [isQuerySign], fun _ none => by cases none⟩
  have absolute : r.importee.isAbsolute = true := by decide
  have marked : ¬ r.Unmarked := fun unmarked =>
    unmarked "x.css?v=1".toList (by decide +kernel) (by decide)
  obtain ⟨way, entries, read, ownWay, ownEntries⟩ := (specifier_query_iff told absolute).1
  exact ⟨told, absolute, by decide +kernel, way, entries, read, mt ownWay.1 marked,
    mt ownEntries.1 marked⟩

end Reference

end StyleModule
