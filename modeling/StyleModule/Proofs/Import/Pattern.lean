import Mathlib.Data.List.Pairwise
import StyleModule.Proofs.Import.Parts
import StyleModule.Proofs.Text.Margins
import StyleModule.Proofs.Text.Pattern

/-!
# The pattern of import statements

`importPattern` words an import statement as a pattern of optional, greedy and lazy parts. Its lazy
part always stays empty, and what is read in front of the first semicolon does not depend on what
stands behind it (`DropsBefore`). So the pattern reads where a statement begins and as far as that
goes (`exists_first?_importPattern`), and its matches in a text are the statements that are found by
going through the text once (`findAll_importPattern`).
-/

namespace StyleModule.Statement

open Text (Pattern Match Way)

/-- The pattern of an import statement: `(?i)(@import)\s+(url\()?\s?(.*?)\s?\)?([^;]*);?`. -/
def importPattern : Pattern :=
  .sequence [
    .group 1 (.word importWord),
    .atLeastOne Text.isBlank,
    .optional (.group 2 (.word urlWord)),
    .optional (.char Text.isBlank),
    .group 3 (.lazy (· ≠ '\n')),
    .optional (.char Text.isBlank),
    .optional (.char (· = ')')),
    .group 4 (.greedy (· ≠ ';')),
    .optional (.char (· = ';'))]

/-- The import statements of a text that begins at a place, and the places where they begin. -/
def located (start : Nat) : List Char → List (Nat × Statement)
  | [] => []
  | c :: s =>
    if startsAt (c :: s) then
      (start, ⟨throughSemicolon (c :: s)⟩) ::
        located (start + (throughSemicolon (c :: s)).length) (afterSemicolon (c :: s))
    else located (start + 1) s
termination_by s => s.length
decreasing_by
  · exact afterSemicolon_shorter c s
  · exact Nat.lt_succ_self s.length

theorem located_map_snd (start : Nat) (s : List Char) :
    (located start s).map Prod.snd = all s := by
  fun_induction located start s with
  | case1 => rw [all, List.map_nil]
  | case2 start c s starts ih => rw [all, if_pos starts, List.map_cons, ih]
  | case3 start c s starts ih => rw [all, if_neg starts, ih]

/-! ## The first semicolon -/

theorem throughSemicolon_cons {c : Char} (other : c ≠ ';') (s : List Char) :
    throughSemicolon (c :: s) = c :: throughSemicolon s := by
  rw [throughSemicolon, List.takeWhile_cons_of_pos (by simpa using other),
    List.dropWhile_cons_of_pos (by simpa using other)]
  rfl

/-- A text through its first semicolon ends with that, or is the whole text. -/
theorem throughSemicolon_cases (s : List Char) : ∃ body, ';' ∉ body ∧
    (throughSemicolon s = body ++ [';'] ∨ throughSemicolon s = body ∧ s = body) := by
  induction s with
  | nil => exact ⟨[], List.not_mem_nil, .inr ⟨rfl, rfl⟩⟩
  | cons c s ih =>
    by_cases semicolon : c = ';'
    · subst semicolon
      exact ⟨[], List.not_mem_nil, .inl rfl⟩
    · obtain ⟨body, lacks, ends⟩ := ih
      refine ⟨c :: body, List.not_mem_cons_of_ne_of_not_mem (Ne.symm semicolon) lacks, ?_⟩
      rw [throughSemicolon_cons semicolon]
      rcases ends with ends | ⟨ends, whole⟩
      · exact .inl (congrArg (c :: ·) ends)
      · exact .inr ⟨congrArg (c :: ·) ends, congrArg (c :: ·) whole⟩

theorem takeWhile_throughSemicolon (s : List Char) :
    (throughSemicolon s).takeWhile (· ≠ ';') = s.takeWhile (· ≠ ';') := by
  induction s with
  | nil => rfl
  | cons c s ih =>
    by_cases semicolon : c = ';'
    · subst semicolon
      rfl
    · rw [throughSemicolon_cons semicolon, List.takeWhile_cons_of_pos (by simpa using semicolon),
        List.takeWhile_cons_of_pos (by simpa using semicolon), ih]

/-- What stands in front of the first semicolon does not matter to what stands behind it. -/
theorem afterSemicolon_append {a : List Char} (lacks : ';' ∉ a) (s : List Char) :
    afterSemicolon (a ++ s) = afterSemicolon s := by
  have other : ∀ c ∈ a, decide (c ≠ ';') = true :=
    fun c mem => decide_eq_true (ne_of_mem_of_not_mem mem lacks)
  rw [afterSemicolon, List.dropWhile_append_of_pos other, afterSemicolon]

theorem afterSemicolon_cons {c : Char} (other : c ≠ ';') (s : List Char) :
    afterSemicolon (c :: s) = afterSemicolon s :=
  afterSemicolon_append (a := [c]) (by simpa using Ne.symm other) s

theorem dropOne_dropWhile (s : List Char) :
    Pattern.dropOne (· = ';') (s.dropWhile (· ≠ ';')) = afterSemicolon s := by
  rw [afterSemicolon]
  cases rest : s.dropWhile (· ≠ ';') with
  | nil => rfl
  | cons c behind =>
    have stops := List.head?_dropWhile_not (fun c => decide (c ≠ ';')) s
    rw [rest] at stops
    rw [Pattern.dropOne, if_pos (by simpa using stops), List.drop_succ_cons, List.drop_zero]

/-- What is dropped is in front of the first semicolon, and nothing behind that matters to it. -/
structure DropsBefore (f : List Char → List Char) : Prop where
  through : ∀ s, f (throughSemicolon s) = throughSemicolon (f s)
  after : ∀ s, afterSemicolon (f s) = afterSemicolon s

namespace DropsBefore

theorem comp {f g : List Char → List Char} (outer : DropsBefore f) (inner : DropsBefore g) :
    DropsBefore (f ∘ g) where
  through s := by
    rw [Function.comp_apply, Function.comp_apply, inner.through, outer.through]
  after s := by
    rw [Function.comp_apply, outer.after, inner.after]

theorem dropOne {test : Char → Bool} (other : test ';' = false) :
    DropsBefore (Pattern.dropOne test) where
  through s := by
    cases s with
    | nil => rfl
    | cons c s =>
      by_cases semicolon : c = ';'
      · subst semicolon
        have stays : ∀ t, Pattern.dropOne test (';' :: t) = ';' :: t :=
          fun t => if_neg (by simp [other])
        rw [stays]
        exact stays []
      · rw [throughSemicolon_cons semicolon, Pattern.dropOne, Pattern.dropOne]
        split
        · rfl
        · rw [throughSemicolon_cons semicolon]
  after s := by
    cases s with
    | nil => rfl
    | cons c s =>
      rw [Pattern.dropOne]
      split
      next dropped =>
        have apart : c ≠ ';' := by
          rintro rfl
          rw [other] at dropped
          cases dropped
        exact (afterSemicolon_cons apart s).symm
      next => rfl

theorem dropBlanks : DropsBefore Text.dropBlanks where
  through s := by
    induction s with
    | nil => rfl
    | cons c s ih =>
      by_cases semicolon : c = ';'
      · subst semicolon
        rfl
      · rw [throughSemicolon_cons semicolon, Text.dropBlanks, Text.dropBlanks, List.dropWhile_cons,
          List.dropWhile_cons]
        split
        · exact ih
        · rw [throughSemicolon_cons semicolon]
  after s := by
    have blank : Text.allBlank (s.takeWhile Text.isBlank) = true := List.all_takeWhile
    have lacks := Text.not_mem_of_allBlank (c := ';') blank rfl
    have whole := afterSemicolon_append lacks (Text.dropBlanks s)
    rw [← whole, Text.dropBlanks, List.takeWhile_append_dropWhile]

end DropsBefore

/-! ## What is dropped in front of a clause -/

/-- A word without a semicolon is found in front of the first semicolon of a text. -/
theorem afterAnyCase?_throughSemicolon {word : List Char} (lacks : ';' ∉ word) (s : List Char) :
    Text.afterAnyCase? word (throughSemicolon s) =
      (Text.afterAnyCase? word s).map throughSemicolon := by
  induction word generalizing s with
  | nil => rfl
  | cons w word ih =>
    rw [List.mem_cons, not_or] at lacks
    cases s with
    | nil => rfl
    | cons c s =>
      by_cases semicolon : c = ';'
      · subst semicolon
        have other : w ≠ ';'.toLower := Ne.symm lacks.1
        have none : ∀ t, Text.afterAnyCase? (w :: word) (';' :: t) = none := fun t => if_neg other
        rw [none]
        exact none []
      · rw [throughSemicolon_cons semicolon, Text.afterAnyCase?, Text.afterAnyCase?, ih lacks.2]
        split <;> rfl

theorem exists_of_afterAnyCase? {word s rest : List Char} (lacks : ';' ∉ word)
    (found : Text.afterAnyCase? word s = some rest) :
    rest = s.drop word.length ∧ afterSemicolon rest = afterSemicolon s := by
  induction word generalizing s with
  | nil =>
    cases found
    exact ⟨rfl, rfl⟩
  | cons w word ih =>
    rw [List.mem_cons, not_or] at lacks
    cases s with
    | nil => cases found
    | cons c s =>
      rw [Text.afterAnyCase?] at found
      split at found
      next same =>
        obtain ⟨drops, after⟩ := ih lacks.2 found
        have other : c ≠ ';' := by
          rintro rfl
          exact lacks.1 same.symm
        refine ⟨drops, after.trans ?_⟩
        exact (afterSemicolon_cons other s).symm
      next => cases found

/-- A text without the opening of brackets that it begins with. -/
def opened (s : List Char) : List Char := (Text.afterAnyCase? urlWord s).getD s

theorem DropsBefore.opened : DropsBefore opened where
  through s := by
    rw [Statement.opened, afterAnyCase?_throughSemicolon (by decide), Option.getD_map]
    rfl
  after s := by
    rw [Statement.opened]
    cases found : Text.afterAnyCase? urlWord s with
    | none => rfl
    | some rest => exact (exists_of_afterAnyCase? (by decide) found).2

/-- A text from what a statement names in it on, for a text that begins behind the word. -/
def named (s : List Char) : List Char :=
  dropBracket (dropBlank (dropBlank (opened (Text.dropBlanks s))))

theorem dropBlank_eq : dropBlank = Pattern.dropOne Text.isBlank := by
  funext s
  cases s <;> rfl

theorem dropBracket_eq : dropBracket = Pattern.dropOne (· = ')') := by
  funext s
  cases s with
  | nil => rfl
  | cons c s =>
    rw [dropBracket, Pattern.dropOne]
    simp only [decide_eq_true_eq]

theorem DropsBefore.named : DropsBefore named := by
  have blank : DropsBefore dropBlank := by
    rw [dropBlank_eq]
    exact .dropOne rfl
  have bracket : DropsBefore dropBracket := by
    rw [dropBracket_eq]
    exact .dropOne rfl
  exact bracket.comp (blank.comp (blank.comp (DropsBefore.opened.comp .dropBlanks)))

theorem dropBlank_dropBlanks (s : List Char) :
    dropBlank (Text.dropBlanks s) = Text.dropBlanks s := by
  have stops := Text.head?_dropWhile s
  rw [Text.dropBlanks]
  cases rest : s.dropWhile Text.isBlank with
  | nil => rfl
  | cons c t =>
    rw [rest] at stops
    exact if_neg (by simp [stops c rfl])

theorem clause_eq (statement : Statement) :
    statement.clause = (named (statement.text.drop importWord.length)).takeWhile (· ≠ ';') := by
  rw [clause, named, opened]
  cases Text.afterAnyCase? urlWord (Text.dropBlanks (statement.text.drop importWord.length)) with
  | some inner => rfl
  | none => rw [Option.getD_none, dropBlank_dropBlanks, dropBlank_dropBlanks]

/-! ## One match -/

theorem startsAt_iff {s : List Char} : startsAt s = true ↔
    ∃ c t, Text.afterAnyCase? importWord s = some (c :: t) ∧ Text.isBlank c = true := by
  rw [startsAt]
  split
  next c t found => simp [found]
  next none =>
    constructor
    · nofun
    · rintro ⟨c, t, found, _⟩
      exact absurd found (none c t)

/-- The pattern reads nothing where no statement begins. -/
theorem first?_importPattern_eq_none {s : List Char} (starts : ¬ startsAt s = true) :
    importPattern.first? s = none := by
  refine List.head?_eq_none_iff.2 (Pattern.ways_append_eq_nil ?_)
  intro w mem
  rw [Pattern.ways, Pattern.ways_word] at mem
  obtain ⟨v, word, rfl⟩ := List.mem_map.1 mem
  obtain ⟨rest, found, rfl⟩ := Option.map_eq_some_iff.1 (Option.mem_toList.1 word)
  refine Pattern.ways_append_of_nil _ (Pattern.ways_append_of_nil _ ?_)
  cases rest with
  | nil => rfl
  | cons c t =>
    refine if_neg ?_
    intro blank
    exact starts (startsAt_iff.2 ⟨c, t, found, blank⟩)

theorem leaves_opened (s : List Char) : ∃ groups, groups.lookup 4 = none ∧
    (Pattern.optional (.group 2 (.word urlWord))).Leaves s groups (opened s) := by
  unfold Pattern.Leaves
  rw [Pattern.first?_optional, Pattern.first?_group_word, opened]
  cases Text.afterAnyCase? urlWord s with
  | none => exact ⟨[], rfl, [], rfl⟩
  | some rest => exact ⟨[(2, s.take urlWord.length)], rfl, s.take urlWord.length, rfl⟩

theorem leaves_dropBlank (s : List Char) :
    (Pattern.optional (.char Text.isBlank)).Leaves s [] (dropBlank s) := by
  rw [dropBlank_eq]
  exact Pattern.leaves_optional_char Text.isBlank s

theorem leaves_dropBracket (s : List Char) :
    (Pattern.optional (.char (· = ')'))).Leaves s [] (dropBracket s) := by
  rw [dropBracket_eq]
  exact Pattern.leaves_optional_char (· = ')') s

theorem leaves_afterSemicolon (s : List Char) :
    (Pattern.optional (.char (· = ';'))).Leaves (s.dropWhile (· ≠ ';')) [] (afterSemicolon s) := by
  rw [← dropOne_dropWhile]
  exact Pattern.leaves_optional_char (· = ';') _

/-- Behind the word and a blank, the pattern reads through the first semicolon. -/
theorem leaves_importPattern {s : List Char} {c : Char} {t : List Char}
    (found : Text.afterAnyCase? importWord s = some (c :: t)) (blank : Text.isBlank c = true) :
    ∃ groups, importPattern.Leaves s groups (afterSemicolon (named (c :: t))) ∧
      groups.lookup 4 = some ((named (c :: t)).takeWhile (· ≠ ';')) := by
  have word : (Pattern.group 1 (.word importWord)).Leaves s [(1, s.take importWord.length)]
      (c :: t) := by
    refine ⟨s.take importWord.length, ?_⟩
    rw [Pattern.first?_group_word, found]
    rfl
  have blanks : (Pattern.atLeastOne Text.isBlank).Leaves (c :: t) []
      (Text.dropBlanks (c :: t)) := by
    rw [Text.dropBlanks, List.dropWhile_cons_of_pos blank]
    exact Pattern.leaves_atLeastOne blank t
  obtain ⟨groups, apart, opening⟩ := leaves_opened (Text.dropBlanks (c :: t))
  -- every part behind the blanks may be empty, so no part in front of it is ever read another way
  refine ⟨_, word.sequence_cons <| blanks.sequence_cons <| opening.sequence_cons <|
    (leaves_dropBlank _).sequence_cons <| (Pattern.leaves_group_lazy 3 _ _).sequence_cons <|
    (leaves_dropBlank _).sequence_cons <| (leaves_dropBracket _).sequence_cons <|
    (Pattern.leaves_group_greedy 4 _ _).sequence_cons <|
    (leaves_afterSemicolon _).sequence_cons <| Pattern.leaves_sequence_nil _, ?_⟩
  simp [List.lookup_append, List.lookup_cons, apart, named]

/-- Where a statement begins, the pattern reads to its end, and keeps its clause. -/
theorem exists_first?_importPattern {s : List Char} (starts : startsAt s = true) :
    ∃ groups, importPattern.first? s = some ⟨throughSemicolon s, groups, afterSemicolon s⟩ ∧
      groups.lookup 4 = some (clause ⟨throughSemicolon s⟩) := by
  obtain ⟨c, t, found, blank⟩ := startsAt_iff.1 starts
  obtain ⟨_, after⟩ := exists_of_afterAnyCase? (by decide) found
  obtain ⟨groups, ⟨text, first⟩, kept⟩ := leaves_importPattern found blank
  rw [DropsBefore.named.after, after] at first
  -- the text that is read is what stands in front of the text that is left
  have through : text = throughSemicolon s := by
    have whole : text ++ afterSemicolon s = s := Pattern.append_rest first
    exact List.append_cancel_right (whole.trans (throughSemicolon_append s).symm)
  refine ⟨groups, through ▸ first, ?_⟩
  have behind : (throughSemicolon s).drop importWord.length = throughSemicolon (c :: t) := by
    have lacks : ';' ∉ importWord := by decide
    have word := afterAnyCase?_throughSemicolon lacks s
    rw [found] at word
    exact (exists_of_afterAnyCase? lacks word).1.symm
  rw [kept, clause_eq, behind, DropsBefore.named.through, takeWhile_throughSemicolon]

/-! ## All matches -/

/-- The matches are the statements that are found by going through the text once. -/
theorem findFrom_importPattern (ended : Bool) (start : Nat) (s : List Char) :
    (importPattern.findFrom ended start s).map
        (fun m => (m.start, (⟨m.text⟩ : Statement), m.group? 4)) =
      (located start s).map fun (place, statement) =>
        (place, statement, some statement.clause) := by
  -- a match is never empty, so whether one has ended at this place does not matter
  fun_induction located start s generalizing ended with
  | case1 start =>
    rw [Pattern.findFrom, first?_importPattern_eq_none (by decide)]
    rfl
  | case2 start c s starts ih =>
    obtain ⟨groups, first, kept⟩ := exists_first?_importPattern starts
    rw [Pattern.findFrom_of_some first (throughSemicolon_ne_nil c s), List.map_cons, List.map_cons,
      ih, Match.group?, kept]
  | case3 start c s starts ih =>
    rw [Pattern.findFrom_of_none (first?_importPattern_eq_none starts), ih]

/-- A statement that is located begins at its place. -/
theorem split_of_mem_located {start place : Nat} {s : List Char} {statement : Statement}
    (mem : (place, statement) ∈ located start s) :
    ∃ before rest, s = before ++ rest ∧ place = start + before.length ∧
      startsAt rest = true ∧ statement.text = throughSemicolon rest := by
  fun_induction located start s with
  | case1 => cases mem
  | case2 start c s starts ih =>
    rcases List.mem_cons.1 mem with here | mem
    · cases here
      exact ⟨[], c :: s, rfl, rfl, starts, rfl⟩
    · obtain ⟨before, rest, split, rfl, begins⟩ := ih mem
      refine ⟨throughSemicolon (c :: s) ++ before, rest, ?_, ?_, begins⟩
      · rw [List.append_assoc, ← split, throughSemicolon_append]
      · rw [List.length_append, Nat.add_assoc]
  | case3 start c s starts ih =>
    obtain ⟨before, rest, rfl, rfl, begins⟩ := ih mem
    refine ⟨c :: before, rest, rfl, ?_, begins⟩
    rw [List.length_cons, Nat.add_assoc, Nat.add_comm 1]

/-- Wherever a statement may begin, one that is located begins or goes on. -/
theorem exists_located {place : Nat} {s : List Char} (start : Nat)
    (starts : startsAt (s.drop place) = true) :
    ∃ found ∈ located start s, found.1 ≤ start + place ∧
      start + place < found.1 + found.2.text.length := by
  fun_induction located start s generalizing place with
  | case1 start =>
    rw [List.drop_nil] at starts
    cases starts
  | case2 start c s here ih =>
    by_cases within : place < (throughSemicolon (c :: s)).length
    · exact ⟨_, List.mem_cons_self, Nat.le_add_right .., Nat.add_lt_add_left within start⟩
    · obtain ⟨more, rfl⟩ := Nat.exists_eq_add_of_le (Nat.le_of_not_lt within)
      have behind : (throughSemicolon (c :: s) ++ afterSemicolon (c :: s)).drop
          ((throughSemicolon (c :: s)).length + more) = (afterSemicolon (c :: s)).drop more :=
        List.drop_length_add_append ..
      rw [throughSemicolon_append] at behind
      rw [behind] at starts
      obtain ⟨found, mem, after, before⟩ := ih starts
      rw [Nat.add_assoc] at after before
      exact ⟨found, List.mem_cons_of_mem _ mem, after, before⟩
  | case3 start c s absent ih =>
    cases place with
    | zero => exact absurd starts absent
    | succ place =>
      obtain ⟨found, mem, after, before⟩ := ih starts
      rw [Nat.add_assoc, Nat.add_comm 1] at after before
      exact ⟨found, mem, after, before⟩

theorem findAll_map_located (s : List Char) :
    (importPattern.findAll s).map (fun m => (m.start, (⟨m.text⟩ : Statement))) = located 0 s := by
  have same := congrArg (List.map fun (place, statement, _) => (place, statement))
    (findFrom_importPattern false 0 s)
  rw [List.map_map, List.map_map] at same
  exact same.trans (List.map_id _)

theorem begins_of_mem_findAll {s : List Char} {m : Match} (mem : m ∈ importPattern.findAll s) :
    startsAt (s.drop m.start) = true ∧ m.text = throughSemicolon (s.drop m.start) := by
  have here : (m.start, (⟨m.text⟩ : Statement)) ∈ located 0 s := by
    rw [← findAll_map_located]
    exact List.mem_map_of_mem mem
  obtain ⟨before, rest, rfl, place, starts, through⟩ := split_of_mem_located here
  rw [Nat.zero_add] at place
  rw [place, List.drop_left]
  exact ⟨starts, through⟩

theorem lt_length_of_startsAt {s : List Char} {place : Nat}
    (starts : startsAt (s.drop place) = true) : place < s.length := by
  by_contra beyond
  rw [List.drop_eq_nil_of_le (Nat.le_of_not_lt beyond)] at starts
  cases starts

/-- A match ends with its only semicolon, or with the text. -/
theorem ends_of_mem_findAll {s : List Char} {m : Match} (mem : m ∈ importPattern.findAll s) :
    ∃ body, ';' ∉ body ∧ (m.text = body ++ [';'] ∨ m.text = body ∧ m.stop = s.length) := by
  obtain ⟨starts, through⟩ := begins_of_mem_findAll mem
  obtain ⟨body, lacks, ends | ⟨ends, whole⟩⟩ := throughSemicolon_cases (s.drop m.start)
  · exact ⟨body, lacks, .inl (through.trans ends)⟩
  · have length := congrArg List.length whole
    rw [List.length_drop] at length
    have within := lt_length_of_startsAt starts
    refine ⟨body, lacks, .inr ⟨through.trans ends, ?_⟩⟩
    rw [Match.stop, through, ends, ← length]
    omega

/-- The matches of the pattern in a text, one after the other, are the statements that are found by
going through the text once, and their fourth groups are the clauses of these: a match begins
wherever a statement may begin, save inside another match, and goes through the first semicolon. So
matches do not overlap, only their last characters may be semicolons, and only the last match may
lack one; that is where the text ends. -/
theorem findAll_importPattern (s : List Char) :
    (importPattern.findAll s).map (fun m => (m.start, (⟨m.text⟩ : Statement), m.group? 4)) =
        (located 0 s).map (fun (place, statement) => (place, statement, some statement.clause)) ∧
      (importPattern.findAll s).map (fun m => ⟨m.text⟩) = all s ∧
      (∀ m ∈ importPattern.findAll s, startsAt (s.drop m.start) = true ∧
        m.text = throughSemicolon (s.drop m.start)) ∧
      (∀ place, startsAt (s.drop place) = true →
        ∃ m ∈ importPattern.findAll s, m.start ≤ place ∧ place < m.stop) ∧
      (importPattern.findAll s).Pairwise (fun m n => m.stop ≤ n.start) ∧
      (∀ m ∈ importPattern.findAll s, ∃ body, ';' ∉ body ∧
        (m.text = body ++ [';'] ∨ m.text = body ∧ m.stop = s.length)) ∧
      ∀ m ∈ (importPattern.findAll s).dropLast, ';' ∈ m.text := by
  have apart := Pattern.findFrom_pairwise importPattern false 0 s
  refine ⟨findFrom_importPattern false 0 s, ?_, fun m => begins_of_mem_findAll, ?_, apart,
    fun m => ends_of_mem_findAll, ?_⟩
  · rw [← located_map_snd 0, ← findAll_map_located, List.map_map]
    rfl
  · intro place starts
    obtain ⟨found, mem, after, before⟩ := exists_located 0 starts
    rw [← findAll_map_located] at mem
    obtain ⟨m, among, rfl⟩ := List.mem_map.1 mem
    rw [Nat.zero_add] at after before
    exact ⟨m, among, after, before⟩
  · intro m mem
    have among := List.dropLast_subset _ mem
    have next := apart.rel_dropLast_getLast mem
    have last := lt_length_of_startsAt (begins_of_mem_findAll (List.getLast_mem
      (List.ne_nil_of_mem among))).1
    obtain ⟨body, _, ends | ⟨_, ends⟩⟩ := ends_of_mem_findAll among
    · rw [ends]
      exact List.mem_append_right _ List.mem_cons_self
    · rw [ends] at next
      exact absurd last (Nat.not_lt_of_le next)

/-- The word in any letter case, brackets with blanks in them, a longer word, and no semicolon at the
end of the text. -/
example : (importPattern.findAll "@Import  URL( 'a' );@imports;@import b".toList).map
    (fun m => (m.start, m.group? 4)) =
      [(0, some "'a' )".toList), (29, some "b".toList)] := by decide +kernel

end StyleModule.Statement
