import StyleModule.Proofs.Path.Leading

/-!
# Shortest ways

The path of a target relative to a directory is the shortest that leads from the one to the other
(`relative_shortest`). What makes it so is that one step changes the way still to go by one step at
most, whatever step it is (`length_wayBetween_takeStep`): so a path that leads to the target takes at
least as many steps as there were to go.
-/

namespace StyleModule.Path

/-! ## The way between descents -/

/-- The way to a target leaves what is not shared, and then enters what is left of the target. -/
theorem exists_shared (base target : List Step) :
    ∃ shared left own, base = shared ++ left ∧ target = shared ++ own ∧
      wayBetween base target = List.replicate left.length .up ++ own := by
  fun_induction wayBetween base target with
  | case1 base step target ih =>
    obtain ⟨shared, left, own, rfl, rfl, way⟩ := ih
    exact ⟨step :: shared, left, own, rfl, rfl, way⟩
  | case2 a base b target apart =>
    exact ⟨[], a :: base, b :: target, rfl, rfl, by rw [List.map_const']⟩
  | case3 base target notBoth =>
    exact ⟨[], base, target, rfl, rfl, by rw [List.map_const']⟩

theorem climbs_wayBetween (base : List Step) {target : List Step} (below : Descends target) :
    Climbs (wayBetween base target) := by
  obtain ⟨shared, left, own, _, rfl, way⟩ := exists_shared base target
  refine ⟨left.length, own, ?_, way⟩
  intro step mem
  exact below step (List.mem_append_right _ mem)

theorem wayBetween_self (steps : List Step) : wayBetween steps steps = [] := by
  induction steps with
  | nil => rfl
  | cons step steps ih => rw [wayBetween, if_pos rfl, ih]

/-- Only where nothing is to go, the way is no step. -/
theorem wayBetween_eq_nil_iff {base target : List Step} :
    wayBetween base target = [] ↔ base = target := by
  constructor
  · intro none
    obtain ⟨shared, left, own, rfl, rfl, way⟩ := exists_shared base target
    rw [none] at way
    obtain ⟨noLeft, noOwn⟩ := List.append_eq_nil_iff.1 way.symm
    have noneLeft : left = [] := by simpa using noLeft
    rw [noneLeft, noOwn]
  · rintro rfl
    exact wayBetween_self base

/-! ## What one step changes -/

/-- From a directory and from an entry of it, the ways to a target differ by one step at most. -/
theorem length_wayBetween_concat (base target : List Step) (last : Step) :
    (wayBetween base target).length ≤ (wayBetween (base ++ [last]) target).length + 1 ∧
      (wayBetween (base ++ [last]) target).length ≤ (wayBetween base target).length + 1 := by
  induction base generalizing target with
  | nil =>
    cases target with
    | nil => simp [wayBetween]
    | cons b target =>
      by_cases same : last = b
      · simp [wayBetween, same]
        omega
      · simp [wayBetween, same]
  | cons a base ih =>
    cases target with
    | nil => simp [wayBetween]
    | cons b target =>
      by_cases same : a = b
      · simpa [wayBetween, same] using ih target
      · simp [wayBetween, same]
        omega

/-- Below the root, one step brings the target nearer by one step at most. -/
theorem length_wayBetween_takeStep {down : List Step} (below : Descends down) (target : List Step)
    {step : Step} (wanders : Wanders [step]) :
    ∃ down', Descends down' ∧
      takeStep (down.reverse ++ [.root]) step = down'.reverse ++ [.root] ∧
      (wayBetween down target).length ≤ (wayBetween down' target).length + 1 := by
  rcases wanders step List.mem_cons_self with rfl | ⟨entry, isEntry, rfl⟩
  · cases ends : down.reverse with
    | nil => exact ⟨down, below, by rw [ends]; rfl, Nat.le_succ _⟩
    | cons last rest =>
      have split : down = rest.reverse ++ [last] := by
        rw [← List.reverse_cons, ← ends, List.reverse_reverse]
      have within : Descends (last :: rest) := ends ▸ below.reverse
      obtain ⟨entry, _, rfl⟩ := within last List.mem_cons_self
      refine ⟨rest.reverse, within.tail.reverse, by rw [List.reverse_reverse]; rfl, ?_⟩
      rw [split]
      exact (length_wayBetween_concat rest.reverse target _).2
  · refine ⟨down ++ [.name entry], ?_, by rw [List.reverse_append]; rfl, ?_⟩
    · intro other mem
      rcases List.mem_append.1 mem with mem | mem
      · exact below other mem
      · exact ⟨entry, isEntry, List.mem_singleton.1 mem⟩
    · exact (length_wayBetween_concat down target _).1

/-- Steps that lead from one descent to another are at least as many as those of the way between the
two. -/
theorem length_wayBetween_le {steps : List Step} (h : Wanders steps) {down reached : List Step}
    (below : Descends down)
    (leads : steps.foldl takeStep (down.reverse ++ [.root]) = reached.reverse ++ [.root]) :
    (wayBetween down reached).length ≤ steps.length := by
  induction steps generalizing down with
  | nil =>
    have same : down = reached := List.reverse_inj.1 (List.append_cancel_right leads)
    exact Nat.le_of_eq (congrArg List.length (wayBetween_eq_nil_iff.2 same))
  | cons step steps ih =>
    have first : Wanders [step] := by
      intro other mem
      exact h other (List.mem_singleton.1 mem ▸ List.mem_cons_self)
    obtain ⟨down', below', taken, nearer⟩ := length_wayBetween_takeStep below reached first
    rw [List.foldl_cons, taken] at leads
    exact Nat.le_trans nearer (Nat.succ_le_succ (ih h.tail below' leads))

/-! ## Relative paths -/

/-- The relative path is written for the way between the two descents. -/
theorem relative_eq {base target : Path} {down reached : List Step}
    (leaving : settle base.moves = .root :: down) (below : Descends reached)
    (settled : settle target.moves = .root :: reached) (absolute : target.isAbsolute = true) :
    base.relative target =
      if wayBetween down reached = [] then current else ofSteps (wayBetween down reached) := by
  have way : wayBetween (settle base.moves) (.root :: reached) = wayBetween down reached := by
    rw [leaving, wayBetween, if_pos rfl]
  have written := movesOf_writeSteps (climbs_wayBetween down below).wanders
  have text := text_relative base target settled absolute
  rw [way] at text
  split
  next none =>
    rw [none] at text
    exact ext_toList text
  next some =>
    have visible : writeSteps (wayBetween down reached) ≠ [] := by
      intro empty
      rw [empty] at written
      exact some written.symm
    rw [if_neg visible] at text
    exact ext_toList (text.trans String.toList_ofList.symm)

/-- The path of a target relative to a directory leads from the directory to the target. It is `.`
where the two are the same, and else steps up and entries behind them; no relative path that leads
there takes fewer steps. Either end may be replaced by its canonical form. -/
theorem relative_shortest {base target : Path} (given : base.isAbsolute = true)
    (absolute : target.isAbsolute = true) :
    (base.join (base.relative target)).canonical = target.canonical ∧
      (base.relative target).isAbsolute = false ∧
      (base.relative target).canonical = base.relative target ∧
      (base.relative target = current ↔ base.canonical = target.canonical) ∧
      (base.canonical ≠ target.canonical → ∃ (climbs : Nat) (entries : List (List Char)),
        (∀ entry ∈ entries, IsEntry entry) ∧
          (base.relative target).steps = List.replicate climbs .up ++ entries.map .name) ∧
      (∀ other : Path, other.isAbsolute = false →
        (base.canonical.join other).canonical = target.canonical →
          (base.relative target).moves.length ≤ other.moves.length) ∧
      base.canonical.relative target = base.relative target ∧
      base.relative target.canonical = base.relative target := by
  obtain ⟨down, deep, leaving⟩ := settle_absolute given
  obtain ⟨reached, below, settled⟩ := settle_absolute absolute
  have climbs := climbs_wayBetween down below
  have form := climbs.normalForm (relative_eq leaving below settled absolute)
  obtain ⟨relative, segments⟩ := relative_below leaving below settled absolute
  have moves : (base.relative target).moves = wayBetween down reached :=
    (movesOf_relative relative).trans segments
  have outside : (base.relative target).isAbsolute = false := isAbsolute_eq_false_iff.2 relative
  have same : wayBetween down reached = [] ↔ base.canonical = target.canonical := by
    rw [wayBetween_eq_nil_iff, canonical_eq_iff, leaving, settled, List.cons.injEq]
    exact (and_iff_right rfl).symm
  refine ⟨?_, outside, form.canonical_eq_self, ?_, ?_, ?_, ?_, ?_⟩
  · rw [canonical_eq_iff, moves_join base outside, segments, settled]
    exact settle_append_wayBetween leaving deep below
  · rw [← same]
    constructor
    · intro here
      rw [← moves, here]
      rfl
    · intro none
      rw [relative_eq leaving below settled absolute, if_pos none]
  · intro apart
    have some : wayBetween down reached ≠ [] := fun none => apart (same.1 none)
    have taken : (base.relative target).steps = wayBetween down reached := by
      rw [relative_eq leaving below settled absolute, if_neg some,
        steps_ofSteps climbs.wanders some]
    obtain ⟨ups, enter, descends, way⟩ := climbs
    obtain ⟨entries, isEntry, rfl⟩ := descends.exists_entries
    exact ⟨ups, entries, isEntry, taken.trans way⟩
  · intro other away leads
    rw [canonical_join, canonical_eq_iff, moves_join base away, settle_append, leaving, settled,
      List.reverse_eq_iff, List.reverse_cons, List.reverse_cons] at leads
    rw [moves, moves_relative away]
    exact length_wayBetween_le (wanders_segmentMoves _) deep leads
  · rw [Path.relative, Path.relative, canonical_canonical]
  · rw [Path.relative, Path.relative, canonical_canonical]

/-- From one directory to a file in another, both written with steps to spare. -/
theorem relative_shortest_sibling :
    let base : Path := ⟨"/d/./cmp"⟩
    let target : Path := ⟨"/d/global/../global/app.css"⟩
    base.isAbsolute = true ∧ target.isAbsolute = true ∧
      base.relative target = ⟨"../global/app.css"⟩ ∧
      ∀ other : Path, other.isAbsolute = false →
        (base.canonical.join other).canonical = target.canonical → 3 ≤ other.moves.length := by
  intro base target
  have given : base.isAbsolute = true := by decide
  have absolute : target.isAbsolute = true := by decide
  have written : base.relative target = ⟨"../global/app.css"⟩ := by decide +kernel
  obtain ⟨_, _, _, _, _, shortest, _⟩ := relative_shortest given absolute
  refine ⟨given, absolute, written, fun other away leads => ?_⟩
  have fewest := shortest other away leads
  rw [written] at fewest
  exact fewest

end StyleModule.Path
