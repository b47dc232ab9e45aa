import StyleModule.Path.Canonical
import StyleModule.Proofs.Path.Moves

/-!
# What canonical forms say

The canonical form of a path has exactly the settled moves of the path (`moves_canonical`), so two
paths have one canonical form just where their moves settle to the same (`canonical_eq_iff`). Below
the root the settled moves go down only; the invariant of settling is that what has been taken is a
descent from the root, newest entry first.
-/

namespace StyleModule.Path

/-! ## Settling -/

theorem foldl_takeStep_filter (steps taken : List Step) :
    (steps.filter (· ≠ .here)).foldl takeStep taken = steps.foldl takeStep taken := by
  induction steps generalizing taken with
  | nil => rfl
  | cons step steps ih =>
    by_cases stays : step = .here
    · rw [stays, List.filter_cons_of_neg (by simp), ih]
      rfl
    · rw [List.filter_cons_of_pos (by simpa using stays), List.foldl_cons, List.foldl_cons, ih]

theorem settle_steps (p : Path) : settle p.steps = settle p.moves := by
  unfold settle
  exact congrArg List.reverse (foldl_takeStep_filter p.steps []).symm

theorem descends_nil : Descends [] := by
  intro step h
  cases h

theorem Wanders.tail {step : Step} {steps : List Step} (h : Wanders (step :: steps)) :
    Wanders steps := by
  intro other ho
  exact h other (List.mem_cons_of_mem _ ho)

theorem Descends.tail {step : Step} {steps : List Step} (h : Descends (step :: steps)) :
    Descends steps := by
  intro other ho
  exact h other (List.mem_cons_of_mem _ ho)

theorem Descends.reverse {steps : List Step} (h : Descends steps) : Descends steps.reverse := by
  intro step hs
  exact h step (List.mem_reverse.1 hs)

/-- Going down takes every step. -/
theorem Descends.foldl_takeStep {steps : List Step} (h : Descends steps) (taken : List Step) :
    steps.foldl takeStep taken = steps.reverse ++ taken := by
  induction steps generalizing taken with
  | nil => rfl
  | cons step steps ih =>
    obtain ⟨entry, _, rfl⟩ := h step List.mem_cons_self
    have first : takeStep taken (.name entry) = .name entry :: taken := rfl
    rw [List.foldl_cons, first, ih h.tail, List.reverse_cons, List.append_assoc]
    rfl

/-- Going up as often as one went down takes all of it back. -/
theorem Descends.foldl_up {down : List Step} (h : Descends down) (taken : List Step) :
    (List.replicate down.length .up).foldl takeStep (down ++ taken) = taken := by
  induction down with
  | nil => rfl
  | cons step down ih =>
    obtain ⟨entry, _, rfl⟩ := h step List.mem_cons_self
    have first : takeStep (.name entry :: down ++ taken) .up = down ++ taken := rfl
    rw [List.length_cons, List.replicate_succ, List.foldl_cons, first, ih h.tail]

/-- Below the root there is no way out. -/
theorem Wanders.foldl_takeStep_root {steps : List Step} (h : Wanders steps) {taken : List Step}
    (below : Descends taken) :
    ∃ down, Descends down ∧ steps.foldl takeStep (taken ++ [.root]) = down ++ [.root] := by
  induction steps generalizing taken with
  | nil => exact ⟨taken, below, rfl⟩
  | cons step steps ih =>
    rcases h step List.mem_cons_self with rfl | ⟨entry, isEntry, rfl⟩
    · cases taken with
      | nil => exact ih h.tail below
      | cons last taken =>
        obtain ⟨entry, _, rfl⟩ := below last List.mem_cons_self
        exact ih h.tail below.tail
    · have more : Descends (.name entry :: taken) := by
        intro other ho
        rcases List.mem_cons.1 ho with rfl | ho
        · exact ⟨entry, isEntry, rfl⟩
        · exact below other ho
      exact ih h.tail more

theorem Wanders.foldl_takeStep {steps : List Step} (h : Wanders steps) {taken : List Step}
    (before : Wanders taken) : Wanders (steps.foldl takeStep taken) := by
  induction steps generalizing taken with
  | nil => exact before
  | cons step steps ih =>
    have more : ∀ other, other = .up ∨ (∃ entry, IsEntry entry ∧ other = .name entry) →
        Wanders (other :: taken) := by
      intro other ho another ha
      rcases List.mem_cons.1 ha with rfl | ha
      · exact ho
      · exact before another ha
    refine ih h.tail ?_
    rcases h step List.mem_cons_self with rfl | ⟨entry, isEntry, rfl⟩
    · unfold takeStep
      dsimp only
      split
      · exact before.tail
      · exact before
      · exact more .up (.inl rfl)
    · exact more (.name entry) (.inr ⟨entry, isEntry, rfl⟩)

theorem mem_of_mem_foldl_takeStep {steps taken : List Step} {step : Step}
    (h : step ∈ steps.foldl takeStep taken) : step ∈ taken ∨ step ∈ steps := by
  induction steps generalizing taken with
  | nil => exact .inl h
  | cons next steps ih =>
    have more : ∀ step ∈ takeStep taken next, step ∈ taken ∨ step = next := by
      intro step mem
      unfold takeStep at mem
      split at mem
      next => exact .inl mem
      next =>
        split at mem
        next => exact .inl (List.mem_cons_of_mem _ mem)
        next => exact .inl mem
        next => exact (List.mem_cons.1 mem).symm
      next => exact (List.mem_cons.1 mem).symm
    rcases ih h with mem | mem
    · rcases more step mem with mem | rfl
      · exact .inl mem
      · exact .inr List.mem_cons_self
    · exact .inr (List.mem_cons_of_mem _ mem)

/-- Settling adds no step. -/
theorem mem_of_mem_settle {steps : List Step} {step : Step} (h : step ∈ settle steps) :
    step ∈ steps :=
  (mem_of_mem_foldl_takeStep (List.mem_reverse.1 h)).resolve_left List.not_mem_nil

theorem settle_append (before after : List Step) :
    settle (before ++ after) = (after.foldl takeStep (settle before).reverse).reverse := by
  unfold settle
  rw [List.foldl_append, List.reverse_reverse]

theorem settle_append_descends (before : List Step) {down : List Step} (h : Descends down) :
    settle (before ++ down) = settle before ++ down := by
  rw [settle_append, h.foldl_takeStep, List.reverse_append, List.reverse_reverse,
    List.reverse_reverse]

/-- A step taken behind others is, wherever these are taken from, one more step behind them. -/
theorem foldl_takeStep_takeStep (taken before : List Step) (step : Step) :
    (takeStep taken step).reverse.foldl takeStep before =
      takeStep (taken.reverse.foldl takeStep before) step := by
  have behind : ∀ (taken : List Step) (last : Step), (last :: taken).reverse.foldl takeStep before =
      takeStep (taken.reverse.foldl takeStep before) last := by
    intro taken last
    rw [List.reverse_cons, List.foldl_append]
    rfl
  cases step with
  | here => rfl
  | root => exact behind taken .root
  | name entry => exact behind taken (.name entry)
  | up =>
    -- whether a step up takes one back hangs on the newest of the steps taken
    cases taken with
    | nil => exact behind [] .up
    | cons last taken =>
      cases last with
      | here => exact behind (.here :: taken) .up
      | up => exact behind (.up :: taken) .up
      | root =>
        rw [behind taken .root]
        exact behind taken .root
      | name entry =>
        rw [behind taken (.name entry)]
        rfl

/-- Steps lead where they led before they were settled, wherever they are taken from. -/
theorem foldl_takeStep_settle (steps before : List Step) :
    (settle steps).foldl takeStep before = steps.foldl takeStep before := by
  have run : ∀ taken : List Step, (steps.foldl takeStep taken).reverse.foldl takeStep before =
      steps.foldl takeStep (taken.reverse.foldl takeStep before) := by
    intro taken
    induction steps generalizing taken with
    | nil => rfl
    | cons step steps ih =>
      rw [List.foldl_cons, ih, foldl_takeStep_takeStep]
      rfl
  exact run []

/-- Settling what is settled changes nothing. -/
theorem settle_settle (steps : List Step) : settle (settle steps) = settle steps :=
  congrArg List.reverse (foldl_takeStep_settle steps [])

/-- From the root, what is left is the root and a descent. -/
theorem settle_absolute {p : Path} (h : p.isAbsolute = true) :
    ∃ down, Descends down ∧ settle p.moves = .root :: down := by
  obtain ⟨s, text⟩ := isAbsolute_iff.1 h
  obtain ⟨down, below, settled⟩ := (wanders_segmentMoves s).foldl_takeStep_root descends_nil
  refine ⟨down.reverse, below.reverse, ?_⟩
  rw [List.nil_append] at settled
  have first : takeStep [] .root = [.root] := rfl
  rw [settle, moves, text, movesOf_root, List.foldl_cons, first, settled, List.reverse_append]
  rfl

theorem wanders_settle {p : Path} (h : p.isAbsolute = false) : Wanders (settle p.moves) := by
  intro step hs
  rw [settle, moves_relative h, List.mem_reverse] at hs
  exact (wanders_segmentMoves _).foldl_takeStep descends_nil.wanders step hs

/-! ## Canonical forms -/

theorem canonical_eq (p : Path) :
    p.canonical = if settle p.moves = [] then current else ofSteps (settle p.moves) := by
  rw [canonical, settle_steps]
  cases settle p.moves <;> rfl

theorem moves_canonical (p : Path) : p.canonical.moves = settle p.moves := by
  rw [canonical_eq]
  split
  next none => rw [none]; decide
  next =>
    rw [moves, ofSteps, String.toList_ofList]
    by_cases absolute : p.isAbsolute = true
    · obtain ⟨down, below, settled⟩ := settle_absolute absolute
      rw [settled, movesOf_writeSteps_root below.wanders]
    · exact movesOf_writeSteps (wanders_settle (by simpa using absolute))

theorem canonical_eq_iff {p q : Path} :
    p.canonical = q.canonical ↔ settle p.moves = settle q.moves := by
  constructor
  · intro h
    rw [← moves_canonical, h, moves_canonical]
  · intro h
    rw [canonical_eq, h, ← canonical_eq]

theorem isAbsolute_canonical {p : Path} (h : p.isAbsolute = true) :
    p.canonical.isAbsolute = true := by
  obtain ⟨down, below, settled⟩ := settle_absolute h
  apply eq_true_of_ne_false
  intro relative
  have taken := moves_canonical p
  rw [moves_relative relative, settled] at taken
  apply (wanders_segmentMoves _).root_not_mem
  rw [taken]
  exact List.mem_cons_self

/-- The segments of a canonical form from the root are the descent that is left. -/
theorem segmentMoves_canonical {p : Path} (h : p.isAbsolute = true) {down : List Step}
    (settled : settle p.moves = .root :: down) :
    segmentMoves p.canonical.text.toList = down := by
  have taken := moves_canonical p
  obtain ⟨rest, text⟩ := isAbsolute_iff.1 (isAbsolute_canonical h)
  rw [moves, text, movesOf_root, settled] at taken
  rw [text, segmentMoves_cons_slash]
  exact (List.cons.inj taken).2

/-- A descent from the root is settled. -/
theorem settle_root {down : List Step} (h : Descends down) :
    settle (.root :: down) = .root :: down := by
  have first : takeStep [] .root = [.root] := rfl
  rw [settle, List.foldl_cons, first, h.foldl_takeStep, List.reverse_append, List.reverse_reverse]
  rfl

/-- Canonical forms are their own. -/
theorem canonical_canonical (p : Path) : p.canonical.canonical = p.canonical := by
  rw [canonical_eq_iff, moves_canonical, settle_settle]

end StyleModule.Path
