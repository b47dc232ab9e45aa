import StyleModule.Proofs.Path.Relative

/-!
# What a relative path says of its directory

A path that is followed from a directory goes up from it and then into entries of its own, so its
canonical form shares with the directory's what it did not leave (`settle_append_shared`). The way
back to it passes over all that is shared: it is written with dots, with slashes, and with the
entries of the followed path, but never with those of the directory (`mem_relative_join`).
-/

namespace StyleModule.Path

/-! ## Settling behind a descent -/

/-- Steps behind a descent take back a part of it, and then go into entries of their own. -/
theorem Wanders.foldl_takeStep_shared {steps : List Step} (h : Wanders steps)
    {own shared : List Step} (below : Descends own) (above : Descends shared) :
    ∃ own' shared', Descends own' ∧ shared' <:+ shared ∧
      (∀ step ∈ own', step ∈ own ∨ step ∈ steps) ∧
      steps.foldl takeStep (own ++ shared ++ [.root]) = own' ++ shared' ++ [.root] := by
  induction steps generalizing own shared with
  | nil => exact ⟨own, shared, below, List.suffix_rfl, fun step mem => .inl mem, rfl⟩
  | cons step steps ih =>
    rcases h step List.mem_cons_self with rfl | ⟨entry, isEntry, rfl⟩
    · cases own with
      | cons last own =>
        obtain ⟨entry, _, rfl⟩ := below last List.mem_cons_self
        obtain ⟨own', shared', below', suffix, known, settled⟩ := ih h.tail below.tail above
        refine ⟨own', shared', below', suffix, fun step mem => ?_, settled⟩
        exact (known step mem).imp (List.mem_cons_of_mem _) (List.mem_cons_of_mem _)
      | nil =>
        cases shared with
        | nil =>
          obtain ⟨own', shared', below', suffix, known, settled⟩ := ih h.tail below above
          refine ⟨own', shared', below', suffix, fun step mem => ?_, settled⟩
          exact (known step mem).imp_right (List.mem_cons_of_mem _)
        | cons last shared =>
          obtain ⟨entry, _, rfl⟩ := above last List.mem_cons_self
          obtain ⟨own', shared', below', suffix, known, settled⟩ := ih h.tail below above.tail
          refine ⟨own', shared', below', suffix.trans (List.suffix_cons _ _),
            fun step mem => ?_, settled⟩
          exact (known step mem).imp_right (List.mem_cons_of_mem _)
    · have more : Descends (.name entry :: own) := by
        intro other mem
        rcases List.mem_cons.1 mem with rfl | mem
        · exact ⟨entry, isEntry, rfl⟩
        · exact below other mem
      obtain ⟨own', shared', below', suffix, known, settled⟩ := ih h.tail more above
      refine ⟨own', shared', below', suffix, fun step mem => ?_, settled⟩
      rcases known step mem with mine | later
      · rcases List.mem_cons.1 mine with rfl | mine
        · exact .inr List.mem_cons_self
        · exact .inl mine
      · exact .inr (List.mem_cons_of_mem _ later)

/-- A descent from the root and the steps behind it settle to a part of the descent, followed by
entries that the steps go into. -/
theorem settle_append_shared {before steps down : List Step} (h : Wanders steps)
    (settled : settle before = .root :: down) (below : Descends down) :
    ∃ shared left own, down = shared ++ left ∧ Descends own ∧ (∀ step ∈ own, step ∈ steps) ∧
      settle (before ++ steps) = .root :: (shared ++ own) := by
  obtain ⟨own, shared, within, ⟨left, split⟩, known, taken⟩ :=
    h.foldl_takeStep_shared descends_nil below.reverse
  refine ⟨shared.reverse, left.reverse, own.reverse, ?_, within.reverse, ?_, ?_⟩
  · rw [← List.reverse_append, split, List.reverse_reverse]
  · intro step mem
    exact (known step (List.mem_reverse.1 mem)).resolve_left List.not_mem_nil
  · rw [settle_append, settled, List.reverse_cons, ← List.nil_append down.reverse, taken]
    simp only [List.reverse_append, List.reverse_cons, List.reverse_nil, List.nil_append,
      List.cons_append]

theorem wayBetween_append (shared base target : List Step) :
    wayBetween (shared ++ base) (shared ++ target) = wayBetween base target := by
  induction shared with
  | nil => rfl
  | cons step shared ih => rw [List.cons_append, List.cons_append, wayBetween, if_pos rfl, ih]

/-! ## The characters that are written -/

/-- What a path shares with the directory is not written on the way to it. -/
theorem mem_relative_of_shared {base target : Path} {shared left own : List Step}
    (leaving : settle base.moves = .root :: (shared ++ left))
    (reaching : settle target.moves = .root :: (shared ++ own)) (below : Descends own)
    (absolute : target.isAbsolute = true) {c : Char}
    (h : c ∈ (base.relative target).text.toList) :
    c = '.' ∨ c = '/' ∨ ∃ entry, .name entry ∈ own ∧ c ∈ entry := by
  have way : wayBetween (settle base.moves) (.root :: (shared ++ own)) = wayBetween left own := by
    rw [leaving]
    exact wayBetween_append (.root :: shared) left own
  rw [text_relative base target reaching absolute, way] at h
  split at h
  · exact .inl (List.mem_singleton.1 h)
  rcases mem_writeSteps h with slash | ⟨step, taken, hc⟩
  · exact .inr (.inl slash)
  rcases eq_up_or_mem_of_mem_wayBetween taken with rfl | taken
  · exact .inl (eq_dot_of_mem_up hc)
  · obtain ⟨entry, _, rfl⟩ := below step taken
    exact .inr (.inr ⟨entry, taken, hc⟩)

/-- The way from a directory to what a path leads to from there is written with what the path is
written with, with dots and slashes: nothing of the directory's own text stands in it. -/
theorem mem_relative_join {base : Path} (absolute : base.isAbsolute = true) (target : Path)
    {c : Char} (h : c ∈ (base.relative (base.join target).canonical).text.toList) :
    c = '.' ∨ c = '/' ∨ c ∈ target.text.toList := by
  by_cases away : target.isAbsolute = true
  · rw [join_absolute base away] at h
    rcases mem_relative h with dot | slash | mem
    · exact .inl dot
    · exact .inr (.inl slash)
    · exact mem_canonical mem
  · have away : target.isAbsolute = false := by simpa using away
    have joined := isAbsolute_canonical (isAbsolute_join absolute target)
    obtain ⟨down, below, leaving⟩ := settle_absolute absolute
    obtain ⟨shared, left, own, rfl, descends, known, settled⟩ :=
      settle_append_shared (wanders_segmentMoves target.text.toList) leaving below
    have whole : Descends (shared ++ own) := by
      intro step mem
      rcases List.mem_append.1 mem with mem | mem
      · exact below step (List.mem_append_left _ mem)
      · exact descends step mem
    have reaching : settle (base.join target).canonical.moves = .root :: (shared ++ own) := by
      rw [moves_canonical, moves_join base away, settled, settle_root whole]
    rcases mem_relative_of_shared leaving reaching descends joined h with
      dot | slash | ⟨entry, mem, hc⟩
    · exact .inl dot
    · exact .inr (.inl slash)
    · exact .inr (.inr (mem_of_mem_segmentMoves (known _ mem) hc))

end StyleModule.Path
