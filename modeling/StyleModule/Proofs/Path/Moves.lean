import StyleModule.Path.Basic

/-!
# The moves of a path

The moves of a written path are its steps without those that stay. They are what a path means: the
moves of a text behind a slash are added to those in front of it (`segmentMoves_slash`), so that
joining a relative path adds its moves (`moves_join`), and what is written for a list of moves has
exactly these (`moves_writeSteps`).
-/

namespace StyleModule.Path

/-- A segment that goes into an entry. -/
structure IsEntry (segment : List Char) : Prop where
  busy : isIdle segment = false
  not_up : segment ≠ ['.', '.']
  unbroken : '/' ∉ segment

/-- Steps that go up or into entries. -/
def Wanders (steps : List Step) : Prop :=
  ∀ step ∈ steps, step = .up ∨ ∃ entry, IsEntry entry ∧ step = .name entry

/-- Steps that go into entries only. -/
def Descends (steps : List Step) : Prop :=
  ∀ step ∈ steps, ∃ entry, IsEntry entry ∧ step = .name entry

/-- The steps that the segments of a text take. -/
def segmentMoves (s : List Char) : List Step := (s.splitOn '/').filterMap Step.ofSegment?

/-- The steps of a written path without those that stay. -/
def movesOf (s : List Char) : List Step := (stepsOf s).filter (· ≠ .here)

def moves (p : Path) : List Step := movesOf p.text.toList

theorem Descends.wanders {steps : List Step} (h : Descends steps) : Wanders steps := by
  intro step hs
  exact .inr (h step hs)

theorem Wanders.root_not_mem {steps : List Step} (h : Wanders steps) : .root ∉ steps := by
  intro root
  rcases h .root root with up | ⟨entry, _, named⟩
  · cases up
  · cases named

/-! ## Beginnings -/

theorem isAbsolute_iff {p : Path} : p.isAbsolute = true ↔ ∃ s, p.text.toList = '/' :: s :=
  beq_iff_eq.trans List.head?_eq_some_iff

theorem isAbsolute_eq_false_iff {p : Path} :
    p.isAbsolute = false ↔ p.text.toList.head? ≠ some '/' :=
  beq_eq_false_iff_ne

/-- A path is the text that is written. -/
theorem ext_toList {p q : Path} (h : p.text.toList = q.text.toList) : p = q := by
  cases p
  cases q
  exact congrArg Path.mk (String.toList_inj.1 h)

/-! ## Segments -/

/-- What stands between slashes holds none, and only what the text holds. -/
theorem of_mem_splitOn {s segment : List Char} (h : segment ∈ s.splitOn '/') :
    '/' ∉ segment ∧ segment ⊆ s := by
  induction s generalizing segment with
  | nil =>
    rw [List.splitOn_nil, List.mem_singleton] at h
    rw [h]
    exact ⟨List.not_mem_nil, List.Subset.refl _⟩
  | cons c s ih =>
    rw [List.splitOn_cons_eq_if_modifyHead] at h
    by_cases slash : c = '/'
    · rw [if_pos (beq_iff_eq.2 slash)] at h
      rcases List.mem_cons.1 h with rfl | h
      · exact ⟨List.not_mem_nil, List.nil_subset _⟩
      · exact ⟨(ih h).1, List.subset_cons_of_subset c (ih h).2⟩
    · rw [if_neg (by simpa using slash)] at h
      cases split : s.splitOn '/' with
      | nil => exact absurd split (List.splitOn_ne_nil _ _)
      | cons first rest =>
        rw [split, List.modifyHead_cons] at h
        rw [split] at ih
        rcases List.mem_cons.1 h with rfl | h
        · obtain ⟨unbroken, within⟩ := ih List.mem_cons_self
          rw [List.mem_cons, not_or]
          exact ⟨⟨Ne.symm slash, unbroken⟩, List.cons_subset_cons c within⟩
        · obtain ⟨unbroken, within⟩ := ih (List.mem_cons_of_mem _ h)
          exact ⟨unbroken, List.subset_cons_of_subset c within⟩

theorem ofSegment?_eq_some {segment : List Char} {step : Step} (unbroken : '/' ∉ segment)
    (h : Step.ofSegment? segment = some step) :
    step = .up ∨ ∃ entry, IsEntry entry ∧ step = .name entry := by
  rw [Step.ofSegment?] at h
  split at h
  · cases h
  next busy =>
    split at h
    · cases h; exact .inl rfl
    next not_up => cases h; exact .inr ⟨_, ⟨by simpa using busy, not_up, unbroken⟩, rfl⟩

theorem wanders_segmentMoves (s : List Char) : Wanders (segmentMoves s) := by
  intro step h
  obtain ⟨segment, hs, taken⟩ := List.mem_filterMap.1 h
  exact ofSegment?_eq_some (of_mem_splitOn hs).1 taken

theorem Wanders.filter_here {steps : List Step} (h : Wanders steps) :
    steps.filter (· ≠ .here) = steps := by
  apply List.filter_eq_self.2
  intro step hs
  rcases h step hs with rfl | ⟨entry, _, rfl⟩ <;> rfl

theorem segmentMoves_nil : segmentMoves [] = [] := rfl

theorem segmentMoves_slash (a b : List Char) :
    segmentMoves (a ++ '/' :: b) = segmentMoves a ++ segmentMoves b := by
  rw [segmentMoves, List.splitOn_append_cons_self, List.filterMap_append]
  rfl

theorem segmentMoves_cons_slash (s : List Char) : segmentMoves ('/' :: s) = segmentMoves s :=
  segmentMoves_slash [] s

/-- The moves of a written path: the root, where it begins there, and those of its segments. -/
theorem movesOf_eq (s : List Char) :
    movesOf s = (if s.head? = some '/' then [.root] else []) ++ segmentMoves s := by
  have settled := (wanders_segmentMoves s).filter_here
  unfold movesOf stepsOf
  split
  next t =>
    have inner := (wanders_segmentMoves t).filter_here
    rw [List.filter_cons_of_pos (by decide), if_pos List.head?_cons, segmentMoves_cons_slash]
    exact congrArg (Step.root :: ·) inner
  next relative =>
    rw [if_neg fun h => by
      obtain ⟨t, rfl⟩ := List.head?_eq_some_iff.1 h
      exact relative t rfl, List.nil_append]
    unfold segmentMoves at settled ⊢
    split
    next segments split =>
      rw [split] at settled ⊢
      rw [List.filter_cons_of_neg (by decide)]
      exact settled
    next => exact settled

theorem movesOf_relative {s : List Char} (h : s.head? ≠ some '/') : movesOf s = segmentMoves s := by
  rw [movesOf_eq, if_neg h, List.nil_append]

theorem moves_relative {p : Path} (h : p.isAbsolute = false) :
    p.moves = segmentMoves p.text.toList :=
  movesOf_relative (isAbsolute_eq_false_iff.1 h)

theorem movesOf_root (s : List Char) : movesOf ('/' :: s) = .root :: segmentMoves s := by
  rw [movesOf_eq, if_pos List.head?_cons, segmentMoves_cons_slash, List.singleton_append]

/-- A path that begins at the root takes no step that stays. -/
theorem steps_eq_moves {p : Path} (h : p.isAbsolute = true) : p.steps = p.moves := by
  obtain ⟨s, text⟩ := isAbsolute_iff.1 h
  have taken : stepsOf ('/' :: s) = .root :: segmentMoves s := rfl
  rw [steps, moves, text, movesOf_root, taken]

/-! ## Joining -/

theorem segmentMoves_push (base : List Char) {part : List Char} (h : part.head? ≠ some '/') :
    segmentMoves (push base part) = segmentMoves base ++ segmentMoves part := by
  rw [push, if_neg h]
  split
  next closed =>
    rcases closed with rfl | closed
    · rw [List.nil_append, segmentMoves_nil, List.nil_append]
    · obtain ⟨front, rfl⟩ := List.getLast?_eq_some_iff.1 closed
      rw [List.append_assoc, List.singleton_append, segmentMoves_slash, segmentMoves_slash,
        segmentMoves_nil, List.append_nil]
  next => exact segmentMoves_slash base part

theorem head?_push (base : List Char) {part : List Char} (h : part.head? ≠ some '/') :
    (push base part).head? = some '/' ↔ base.head? = some '/' := by
  cases base with
  | nil =>
    rw [push, if_neg h, if_pos (.inl rfl), List.nil_append]
    exact iff_of_false h (by simp)
  | cons c base =>
    rw [push, if_neg h]
    split <;> simp

theorem movesOf_push (base : List Char) {part : List Char} (h : part.head? ≠ some '/') :
    movesOf (push base part) = movesOf base ++ segmentMoves part := by
  rw [movesOf_eq, movesOf_eq base, segmentMoves_push base h, List.append_assoc]
  simp only [head?_push base h]

theorem push_absolute (base : List Char) {part : List Char} (h : part.head? = some '/') :
    push base part = part := by
  rw [push, if_pos h]

theorem moves_join (base : Path) {target : Path} (h : target.isAbsolute = false) :
    (base.join target).moves = base.moves ++ segmentMoves target.text.toList := by
  rw [moves, join, String.toList_ofList, movesOf_push _ (isAbsolute_eq_false_iff.1 h)]
  rfl

theorem join_absolute (base : Path) {target : Path} (h : target.isAbsolute = true) :
    base.join target = target := by
  rw [join, push_absolute _ (beq_iff_eq.1 h), String.ofList_toList]

theorem isAbsolute_join_eq (base target : Path) :
    (base.join target).isAbsolute = (base.isAbsolute || target.isAbsolute) := by
  cases absolute : target.isAbsolute with
  | true => rw [join_absolute base absolute, absolute, Bool.or_true]
  | false =>
    rw [Bool.or_false, Bool.eq_iff_iff, isAbsolute, isAbsolute, join, String.toList_ofList,
      beq_iff_eq, beq_iff_eq]
    exact head?_push _ (isAbsolute_eq_false_iff.1 absolute)

/-- Whatever is joined to a path from the root begins at the root. -/
theorem isAbsolute_join {base : Path} (h : base.isAbsolute = true) (target : Path) :
    (base.join target).isAbsolute = true := by
  rw [isAbsolute_join_eq, h, Bool.true_or]

/-! ## Writing -/

theorem IsEntry.segmentMoves {entry : List Char} (h : IsEntry entry) :
    segmentMoves entry = [.name entry] := by
  rw [Path.segmentMoves, List.splitOn_eq_singleton h.unbroken]
  simp [Step.ofSegment?, h.busy, h.not_up]

theorem IsEntry.head? {entry : List Char} (h : IsEntry entry) : entry.head? ≠ some '/' := by
  intro slash
  obtain ⟨rest, rfl⟩ := List.head?_eq_some_iff.1 slash
  exact h.unbroken List.mem_cons_self

/-- Writing steps behind a text adds their moves. -/
theorem movesOf_foldl_push {steps : List Step} (h : Wanders steps) (base : List Char) :
    movesOf (steps.foldl (fun written step => push written step.text) base) =
      movesOf base ++ steps := by
  induction steps generalizing base with
  | nil => exact (List.append_nil _).symm
  | cons step steps ih =>
    have rest : Wanders steps := by
      intro other ho
      exact h other (List.mem_cons_of_mem _ ho)
    have first : movesOf (push base step.text) = movesOf base ++ [step] := by
      rcases h step List.mem_cons_self with rfl | ⟨entry, isEntry, rfl⟩
      · exact movesOf_push base (by decide)
      · rw [Step.text, movesOf_push base isEntry.head?, isEntry.segmentMoves]
    rw [List.foldl_cons, ih rest, first, List.append_assoc, List.singleton_append]

theorem movesOf_writeSteps {steps : List Step} (h : Wanders steps) :
    movesOf (writeSteps steps) = steps := by
  rw [writeSteps, movesOf_foldl_push h]
  rfl

theorem movesOf_writeSteps_root {steps : List Step} (h : Wanders steps) :
    movesOf (writeSteps (.root :: steps)) = .root :: steps := by
  rw [writeSteps, List.foldl_cons, movesOf_foldl_push h]
  rfl

/-- What is written for steps that do not begin at the root does not begin there. -/
theorem head?_writeSteps {steps : List Step} (h : Wanders steps) :
    (writeSteps steps).head? ≠ some '/' := by
  intro slash
  obtain ⟨rest, text⟩ := List.head?_eq_some_iff.1 slash
  have taken := movesOf_writeSteps h
  rw [text, movesOf_root] at taken
  apply h.root_not_mem
  rw [← taken]
  exact List.mem_cons_self

end StyleModule.Path
