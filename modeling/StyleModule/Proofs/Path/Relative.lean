import StyleModule.Path.Relative
import StyleModule.Proofs.Path.Canonical

/-!
# Where relative paths lead

Between two directories below the root the way found is right: taken from the one it ends at the
other (`foldl_wayBetween`). Where the directory is given relative to somewhere, there is nothing the
two have in common, and the way is written as the target from the root, whatever the directory is
(`relative_apart`).
-/

namespace StyleModule.Path

/-! ## The way between steps -/

/-- The way from the end of one descent leads to the end of the other. -/
theorem foldl_wayBetween {base target : List Step} (leaving : Descends base)
    (reaching : Descends target) (taken : List Step) :
    (wayBetween base target).foldl takeStep (base.reverse ++ taken) = target.reverse ++ taken := by
  fun_induction wayBetween base target generalizing taken with
  | case1 base step target ih =>
    rw [List.reverse_cons, List.append_assoc, List.reverse_cons, List.append_assoc]
    exact ih leaving.tail reaching.tail (step :: taken)
  | case2 a base b target apart =>
    have back := leaving.reverse.foldl_up taken
    rw [List.length_reverse] at back
    rw [List.foldl_append, List.map_const', back, reaching.foldl_takeStep]
  | case3 base target apart =>
    have back := leaving.reverse.foldl_up taken
    rw [List.length_reverse] at back
    rw [List.foldl_append, List.map_const', back, reaching.foldl_takeStep]

/-- Behind what settles to the one descent, the way leads to the other. -/
theorem settle_append_wayBetween {before base target : List Step}
    (leaving : settle before = .root :: base) (deep : Descends base) (below : Descends target) :
    settle (before ++ wayBetween base target) = .root :: target := by
  rw [settle_append, leaving, List.reverse_cons, foldl_wayBetween deep below, List.reverse_append,
    List.reverse_reverse]
  rfl

theorem eq_up_or_mem_of_mem_wayBetween {base target : List Step} {step : Step}
    (h : step ∈ wayBetween base target) : step = .up ∨ step ∈ target := by
  have ups : ∀ steps : List Step, step ∈ steps.map (fun _ => Step.up) → step = .up := by
    intro steps hs
    obtain ⟨_, _, rfl⟩ := List.mem_map.1 hs
    rfl
  fun_induction wayBetween base target with
  | case1 base step target ih =>
    rcases ih h with up | mem
    · exact .inl up
    · exact .inr (List.mem_cons_of_mem _ mem)
  | case2 => exact (List.mem_append.1 h).imp_left (ups _)
  | case3 => exact (List.mem_append.1 h).imp_left (ups _)

theorem wanders_wayBetween (base : List Step) {target : List Step} (h : Wanders target) :
    Wanders (wayBetween base target) := by
  intro step hs
  rcases eq_up_or_mem_of_mem_wayBetween hs with up | mem
  · exact .inl up
  · exact h step mem

/-- Steps that do not begin at the root share none with those that do. -/
theorem wayBetween_root {base : List Step} (h : Wanders base) (target : List Step) :
    wayBetween base (.root :: target) = List.replicate base.length .up ++ .root :: target := by
  cases base with
  | nil => rfl
  | cons step base =>
    have apart : step ≠ .root := by
      rintro rfl
      exact h.root_not_mem List.mem_cons_self
    rw [wayBetween, if_neg apart, List.map_const']

/-! ## The characters that are written -/

theorem mem_push {base part : List Char} {c : Char} (h : c ∈ push base part) :
    c ∈ base ∨ c = '/' ∨ c ∈ part := by
  unfold push at h
  split at h
  · exact .inr (.inr h)
  split at h
  · exact (List.mem_append.1 h).imp_right .inr
  · exact (List.mem_append.1 h).imp_right List.mem_cons.1

theorem mem_foldl_push {steps : List Step} {base : List Char} {c : Char}
    (h : c ∈ steps.foldl (fun written step => push written step.text) base) :
    c ∈ base ∨ c = '/' ∨ ∃ step ∈ steps, c ∈ step.text := by
  induction steps generalizing base with
  | nil => exact .inl h
  | cons step steps ih =>
    rcases ih h with mem | slash | ⟨other, ho, mem⟩
    · rcases mem_push mem with mem | slash | mem
      · exact .inl mem
      · exact .inr (.inl slash)
      · exact .inr (.inr ⟨step, List.mem_cons_self, mem⟩)
    · exact .inr (.inl slash)
    · exact .inr (.inr ⟨other, List.mem_cons_of_mem _ ho, mem⟩)

/-- Every step of a written path is found in its text. -/
theorem mem_of_mem_segmentMoves {s entry : List Char} (h : .name entry ∈ segmentMoves s) {c : Char}
    (hc : c ∈ entry) : c ∈ s := by
  obtain ⟨segment, hs, taken⟩ := List.mem_filterMap.1 h
  have same : segment = entry := by
    unfold Step.ofSegment? at taken
    split at taken
    · cases taken
    split at taken
    · cases taken
    · exact Step.name.inj (Option.some.inj taken)
  exact (of_mem_splitOn hs).2 (same ▸ hc)

theorem eq_dot_of_mem_up {c : Char} (h : c ∈ Step.up.text) : c = '.' := by
  simpa [Step.text] using h

/-- The moves of a path are written with what the path is written with, with dots and slashes. -/
theorem mem_of_mem_moves {p : Path} {step : Step} (h : step ∈ p.moves) {c : Char}
    (hc : c ∈ step.text) : c = '.' ∨ c = '/' ∨ c ∈ p.text.toList := by
  rw [moves, movesOf_eq] at h
  rcases List.mem_append.1 h with root | mem
  · split at root
    next =>
      rw [List.mem_singleton.1 root] at hc
      exact .inr (.inl (List.mem_singleton.1 hc))
    next => cases root
  · rcases wanders_segmentMoves _ step mem with rfl | ⟨entry, _, rfl⟩
    · exact .inl (eq_dot_of_mem_up hc)
    · exact .inr (.inr (mem_of_mem_segmentMoves mem hc))

theorem mem_writeSteps {steps : List Step} {c : Char} (h : c ∈ writeSteps steps) :
    c = '/' ∨ ∃ step ∈ steps, c ∈ step.text :=
  (mem_foldl_push h).resolve_left List.not_mem_nil

/-- The canonical form of a path is written with what the path is written with, with dots and
slashes. -/
theorem mem_canonical {p : Path} {c : Char} (h : c ∈ p.canonical.text.toList) :
    c = '.' ∨ c = '/' ∨ c ∈ p.text.toList := by
  rw [canonical_eq] at h
  split at h
  · exact .inl (List.mem_singleton.1 h)
  rw [ofSteps, String.toList_ofList] at h
  rcases mem_writeSteps h with slash | ⟨step, taken, hc⟩
  · exact .inr (.inl slash)
  · exact mem_of_mem_moves (mem_of_mem_settle taken) hc

/-! ## The text of a relative path -/

/-- The text of a relative path: what is written for the way, or `.` for none. -/
theorem text_relative (base target : Path) {down : List Step}
    (settled : settle target.moves = .root :: down) (absolute : target.isAbsolute = true) :
    (base.relative target).text.toList =
      if writeSteps (wayBetween (settle base.moves) (.root :: down)) = [] then ['.']
      else writeSteps (wayBetween (settle base.moves) (.root :: down)) := by
  have leaving : base.canonical.steps.filter (· ≠ .here) = settle base.moves := moves_canonical base
  have reaching : target.canonical.steps = .root :: down := by
    rw [steps_eq_moves (isAbsolute_canonical absolute), moves_canonical, settled]
  rw [relative, leaving, reaching]
  split
  next none => rw [if_pos none]; rfl
  next some => rw [if_neg some, String.toList_ofList]

/-- From a directory below the root, the relative path takes the way between the two. -/
theorem relative_below {base target : Path} {down reached : List Step}
    (leaving : settle base.moves = .root :: down) (below : Descends reached)
    (settled : settle target.moves = .root :: reached) (absolute : target.isAbsolute = true) :
    (base.relative target).text.toList.head? ≠ some '/' ∧
      segmentMoves (base.relative target).text.toList = wayBetween down reached := by
  have way : wayBetween (settle base.moves) (.root :: reached) = wayBetween down reached := by
    rw [leaving, wayBetween, if_pos rfl]
  have wanders := wanders_wayBetween down below.wanders
  have written := movesOf_writeSteps wanders
  rw [movesOf_relative (head?_writeSteps wanders)] at written
  rw [text_relative base target settled absolute, way]
  split
  next none => exact ⟨by decide, by rw [← written, none]; decide⟩
  next => exact ⟨head?_writeSteps wanders, written⟩

/-- From a directory that is relative itself, the relative path is the target from the root. -/
theorem relative_apart {base target : Path} (relative : base.isAbsolute = false)
    (absolute : target.isAbsolute = true) :
    (base.relative target).text.toList = target.canonical.text.toList := by
  obtain ⟨reached, below, settled⟩ := settle_absolute absolute
  have written : writeSteps (wayBetween (settle base.moves) (.root :: reached)) =
      target.canonical.text.toList := by
    rw [canonical_eq, settled, wayBetween_root (wanders_settle relative), writeSteps,
      List.foldl_append, List.foldl_cons, push_absolute _ rfl, if_neg (List.cons_ne_nil _ _),
      ofSteps, String.toList_ofList]
    rfl
  have visible : target.canonical.text.toList ≠ [] := by
    intro none
    have root := isAbsolute_canonical absolute
    rw [isAbsolute, none] at root
    cases root
  rw [text_relative base target settled absolute, written, if_neg visible]

/-- A relative path is written with what its target is written with, with dots and slashes. -/
theorem mem_relative {base target : Path} {c : Char}
    (h : c ∈ (base.relative target).text.toList) :
    c = '.' ∨ c = '/' ∨ c ∈ target.text.toList := by
  have reaching : target.canonical.steps.filter (· ≠ .here) = settle target.moves :=
    moves_canonical target
  unfold relative at h
  split at h
  · exact .inl (List.mem_singleton.1 h)
  rw [String.toList_ofList] at h
  rcases mem_writeSteps h with slash | ⟨step, taken, hc⟩
  · exact .inr (.inl slash)
  rcases eq_up_or_mem_of_mem_wayBetween taken with rfl | taken
  · exact .inl (eq_dot_of_mem_up hc)
  by_cases stays : step = .here
  · rw [stays] at hc
    exact .inl (List.mem_singleton.1 hc)
  · have settled : step ∈ settle target.moves := by
      rw [← reaching]
      exact List.mem_filter.2 ⟨taken, decide_eq_true stays⟩
    exact mem_of_mem_moves (mem_of_mem_settle settled) hc

/-- What is neither a dot nor a slash stands in a relative path where it stands in the name of an
entry on the way. -/
theorem mem_relative_iff {base target : Path} (absolute : target.isAbsolute = true) {c : Char}
    (notDot : c ≠ '.') (notSlash : c ≠ '/') :
    c ∈ (base.relative target).text.toList ↔ ∃ entry,
      .name entry ∈ wayBetween base.canonical.moves target.canonical.moves ∧ c ∈ entry := by
  obtain ⟨reached, below, settled⟩ := settle_absolute absolute
  rw [moves_canonical, moves_canonical, settled]
  constructor
  · intro mem
    rw [text_relative base target settled absolute] at mem
    split at mem
    next => exact absurd (List.mem_singleton.1 mem) notDot
    next =>
      obtain ⟨step, taken, hc⟩ := (mem_writeSteps mem).resolve_left notSlash
      cases step with
      | root => exact absurd (List.mem_singleton.1 hc) notSlash
      | here => exact absurd (List.mem_singleton.1 hc) notDot
      | up => exact absurd (eq_dot_of_mem_up hc) notDot
      | name entry => exact ⟨entry, taken, hc⟩
  · rintro ⟨entry, taken, hc⟩
    by_cases given : base.isAbsolute = true
    · obtain ⟨down, _, leaving⟩ := settle_absolute given
      rw [leaving, wayBetween, if_pos rfl,
        ← (relative_below leaving below settled absolute).2] at taken
      exact mem_of_mem_segmentMoves taken hc
    · have relative : base.isAbsolute = false := by simpa using given
      have reach : .name entry ∈ reached := by
        rw [wayBetween_root (wanders_settle relative)] at taken
        simpa using taken
      rw [relative_apart relative absolute]
      rw [← segmentMoves_canonical absolute settled] at reach
      exact mem_of_mem_segmentMoves reach hc

end StyleModule.Path
