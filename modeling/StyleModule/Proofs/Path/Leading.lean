import StyleModule.Proofs.Path.Normal
import StyleModule.Proofs.Path.Shared

/-!
# What a relative path begins with

The text of a list of moves begins with the text of the first, and a slash follows it if there are
more (`writeSteps_cons`). The first move from a directory to a path goes into an entry just where
the path lies below the directory (`wayBetween_cases`). Together they tell what a relative path can
begin with (`leading_relative`).
-/

namespace StyleModule.Path

/-! ## The first move -/

/-- The way to a path goes up first, unless the path is the directory or lies below it. -/
theorem wayBetween_cases (base target : List Step) :
    (∃ below, target = base ++ below ∧ wayBetween base target = below) ∨
      ¬ base <+: target ∧ ∃ more, wayBetween base target = .up :: more := by
  fun_induction wayBetween base target with
  | case1 base step target ih =>
    rcases ih with ⟨below, rfl, way⟩ | ⟨apart, more, way⟩
    · exact .inl ⟨below, rfl, way⟩
    · refine .inr ⟨fun within => apart ?_, more, way⟩
      exact (List.cons_prefix_cons.1 within).2
  | case2 a base b target apart =>
    exact .inr ⟨fun within => apart (List.cons_prefix_cons.1 within).1, _, rfl⟩
  | case3 base target notBoth =>
    cases base with
    | nil => exact .inl ⟨target, rfl, rfl⟩
    | cons a base =>
      cases target with
      | nil => exact .inr ⟨fun within => List.cons_ne_nil _ _ (List.prefix_nil.1 within), _, rfl⟩
      | cons b target => exact (notBoth a base b target rfl rfl).elim

/-! ## The first move in the text -/

/-- The end of a text, or a slash. -/
def EndsStep (s : List Char) : Prop := s = [] ∨ s.head? = some '/'

/-- What is written for moves begins with the first of them. -/
theorem writeSteps_cons {step : Step} {steps : List Step} (h : Wanders (step :: steps)) :
    ∃ tail, EndsStep tail ∧ writeSteps (step :: steps) = step.text ++ tail := by
  rw [writeSteps_wanders h, List.map_cons, intercalate_cons]
  refine ⟨_, ?_, rfl⟩
  cases steps with
  | nil => exact .inl rfl
  | cons next steps => exact .inr rfl

/-! ## Relative paths -/

/-- What the relative path of `target` as seen from `base` can begin with: `.` for the directory
itself, an entry of the directory for what lies below it, and `..` or the root for all else. -/
inductive Leading (base target : Path) : List Char → Prop
  | same (here : target.canonical.moves = base.canonical.moves) : Leading base target ['.']
  | below {entry tail : List Char} {moves : List Step}
      (under : target.canonical.moves = base.canonical.moves ++ .name entry :: moves)
      (isEntry : IsEntry entry) (ends : EndsStep tail) : Leading base target (entry ++ tail)
  | above {tail : List Char} (outside : ¬ base.canonical.moves <+: target.canonical.moves)
      (ends : EndsStep tail) : Leading base target ('.' :: '.' :: tail)
  | apart {s : List Char} (outside : ¬ ∃ entry moves,
        target.canonical.moves = base.canonical.moves ++ .name entry :: moves) :
      Leading base target ('/' :: s)

/-- From a directory below the root, the first move of the way between the two is told. -/
theorem leading_of_isAbsolute {base target : Path} (given : base.isAbsolute = true)
    (absolute : target.isAbsolute = true) :
    Leading base target (base.relative target).text.toList := by
  obtain ⟨down, _, leaving⟩ := settle_absolute given
  obtain ⟨reached, below, settled⟩ := settle_absolute absolute
  have start : base.canonical.moves = .root :: down := by rw [moves_canonical, leaving]
  have reaching : target.canonical.moves = .root :: reached := by rw [moves_canonical, settled]
  have way : wayBetween (settle base.moves) (.root :: reached) = wayBetween down reached := by
    rw [leaving, wayBetween, if_pos rfl]
  have text := text_relative base target settled absolute
  rw [way] at text
  have wanders := wanders_wayBetween down below.wanders
  rcases wayBetween_cases down reached with ⟨rest, split, same⟩ | ⟨outside, more, up⟩
  · rw [same] at text wanders
    cases rest with
    | nil =>
      have none : writeSteps [] = [] := rfl
      rw [text, if_pos none]
      refine .same ?_
      rw [reaching, start, split, List.append_nil]
    | cons step moves =>
      obtain ⟨tail, ends, written⟩ := writeSteps_cons wanders
      have visible := wanders.text.1
      obtain ⟨entry, isEntry, rfl⟩ := below step (by rw [split]; simp)
      have under : target.canonical.moves = base.canonical.moves ++ .name entry :: moves := by
        rw [reaching, start, split, List.cons_append]
      rw [text, written, if_neg (by simp [visible])]
      exact .below under isEntry ends
  · rw [up] at text wanders
    obtain ⟨tail, ends, written⟩ := writeSteps_cons wanders
    rw [text, written, if_neg (by simp [Step.text])]
    refine .above ?_ ends
    rw [reaching, start, List.cons_prefix_cons, not_and]
    exact fun _ => outside

/-- Nothing from the root lies below a directory that is relative itself. -/
theorem not_below_of_relative {base target : Path} (relative : base.isAbsolute = false)
    (absolute : target.isAbsolute = true) : ¬ ∃ entry moves,
      target.canonical.moves = base.canonical.moves ++ .name entry :: moves := by
  rintro ⟨entry, moves, under⟩
  obtain ⟨reached, _, settled⟩ := settle_absolute absolute
  have wanders : Wanders base.canonical.moves := by
    rw [moves_canonical]
    exact wanders_settle relative
  rw [moves_canonical, settled] at under
  cases first : base.canonical.moves with
  | nil =>
    rw [first] at under
    cases under
  | cons step steps =>
    rw [first] at under wanders
    rw [← (List.cons.inj under).1] at wanders
    exact wanders.root_not_mem List.mem_cons_self

/-- A relative path begins as told. -/
theorem leading_relative (base : Path) {target : Path} (absolute : target.isAbsolute = true) :
    Leading base target (base.relative target).text.toList := by
  by_cases given : base.isAbsolute = true
  · exact leading_of_isAbsolute given absolute
  · have relative : base.isAbsolute = false := by simpa using given
    obtain ⟨s, root⟩ := isAbsolute_iff.1 (isAbsolute_canonical absolute)
    rw [relative_apart relative absolute, root]
    exact .apart (not_below_of_relative relative absolute)

end StyleModule.Path
