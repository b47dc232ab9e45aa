import Mathlib.Data.List.TakeWhile
import StyleModule.Text.Search

/-!
# Patterns

A pattern reads a text from its head. Where it leaves a choice there is an order of preference: an
optional part is rather read than left out, a greedy run of characters rather long than short, a
lazy run rather short than long, and an earlier choice weighs more than a later one. `Pattern.ways`
lists all the ways in which a pattern reads a text, the preferred ones first.

A search looks for the leftmost place where there is a way at all and takes the first way there. The
next search begins where the match ended, but does not take an empty match in that very place.
`Pattern.findAll` are the matches of all searches. They do not overlap (`findFrom_pairwise`), and
each of them stands in the text where it is said to begin (`standsIn_of_mem_findFrom`).

What is repeated is always a single character, so that no round of a repetition is empty.
-/

namespace StyleModule.Text

/-- A pattern. A group keeps what its part reads, under a number. -/
inductive Pattern where
  | empty
  | char (test : Char → Bool)
  | append (p q : Pattern)
  | optional (p : Pattern)
  | greedy (test : Char → Bool)
  | lazy (test : Char → Bool)
  | group (n : Nat) (p : Pattern)

/-- One way in which a text is read: what is read, what the groups keep of it, and what is left. -/
structure Way where
  text : List Char
  groups : List (Nat × List Char)
  rest : List Char

namespace Way

/-- Nothing is read. -/
def stay (s : List Char) : Way := ⟨[], [], s⟩

/-- What one way leaves is read in another. -/
def append (w v : Way) : Way := ⟨w.text ++ v.text, w.groups ++ v.groups, v.rest⟩

/-- What is read is kept under a number. -/
def keep (n : Nat) (w : Way) : Way := ⟨w.text, (n, w.text) :: w.groups, w.rest⟩

end Way

namespace Pattern

/-- The ways to read characters of a kind, the longest first. -/
def runs (test : Char → Bool) : List Char → List Way
  | [] => [.stay []]
  | c :: s =>
    if test c then (runs test s).map (Way.append ⟨[c], [], s⟩) ++ [.stay (c :: s)]
    else [.stay (c :: s)]

/-- All ways in which a pattern reads a text, the preferred ones first. -/
def ways : Pattern → List Char → List Way
  | empty, s => [.stay s]
  | char _, [] => []
  | char test, c :: s => if test c then [⟨[c], [], s⟩] else []
  | append p q, s => (p.ways s).flatMap fun w => (q.ways w.rest).map w.append
  | optional p, s => p.ways s ++ [.stay s]
  | greedy test, s => runs test s
  | lazy test, s => (runs test s).reverse
  | group n p, s => (p.ways s).map (.keep n)

/-- The way in which a search reads a text, if there is one. -/
def first? (p : Pattern) (s : List Char) : Option Way := (p.ways s).head?

/-- Parts one after the other. -/
def sequence (parts : List Pattern) : Pattern := parts.foldr append empty

/-- A word in any letter case. The word is given in small letters; none of them is a form of a
character outside ASCII. -/
def word (w : List Char) : Pattern := sequence (w.map fun c => char fun d => c = d.toLower)

/-- A greedy run of one character at least. -/
def atLeastOne (test : Char → Bool) : Pattern := append (char test) (greedy test)

end Pattern

/-- A match: the place where it begins, counted in characters, what it reads, and what its groups
keep. -/
structure Match where
  start : Nat
  text : List Char
  groups : List (Nat × List Char)

namespace Match

/-- The place behind a match. -/
def stop (m : Match) : Nat := m.start + m.text.length

/-- What the group of a number keeps. -/
def group? (m : Match) (n : Nat) : Option (List Char) := m.groups.lookup n

/-- The match stands where it is said to begin in a text that begins at a place itself. -/
def StandsIn (m : Match) (start : Nat) (s : List Char) : Prop :=
  ∃ before behind, s = before ++ (m.text ++ behind) ∧ m.start = start + before.length

namespace StandsIn

theorem head (start : Nat) (groups : List (Nat × List Char)) {text : List Char} (s : List Char) :
    StandsIn ⟨start, text, groups⟩ start (text ++ s) := ⟨[], s, rfl, rfl⟩

variable {m : Match} {start : Nat} {s : List Char}

theorem behind (a : List Char) (stands : m.StandsIn (start + a.length) s) :
    m.StandsIn start (a ++ s) := by
  obtain ⟨before, behind, rfl, place⟩ := stands
  refine ⟨a ++ before, behind, (List.append_assoc ..).symm, ?_⟩
  rw [place, List.length_append, Nat.add_assoc]

theorem start_le (stands : m.StandsIn start s) : start ≤ m.start := by
  obtain ⟨before, _, _, place⟩ := stands
  exact place ▸ Nat.le_add_right ..

end StandsIn

end Match

namespace Pattern

variable {p q : Pattern} {s : List Char}

/-! ## Ways -/

theorem append_rest_of_mem_runs {test : Char → Bool} {w : Way} (mem : w ∈ runs test s) :
    w.text ++ w.rest = s := by
  induction s generalizing w with
  | nil =>
    rw [List.mem_singleton.1 mem]
    rfl
  | cons c s ih =>
    rw [runs] at mem
    split at mem
    · rcases List.mem_append.1 mem with mem | mem
      · obtain ⟨v, run, rfl⟩ := List.mem_map.1 mem
        exact congrArg (c :: ·) (ih run)
      · rw [List.mem_singleton.1 mem]
        rfl
    · rw [List.mem_singleton.1 mem]
      rfl

/-- What is read and what is left are the text. -/
theorem append_rest_of_mem_ways {w : Way} (mem : w ∈ p.ways s) : w.text ++ w.rest = s := by
  induction p generalizing s w with
  | empty =>
    rw [List.mem_singleton.1 mem]
    rfl
  | char test =>
    cases s with
    | nil => cases mem
    | cons c s =>
      rw [ways] at mem
      split at mem
      · rw [List.mem_singleton.1 mem]
        rfl
      · cases mem
  | append p q ihp ihq =>
    obtain ⟨v, first, mem⟩ := List.mem_flatMap.1 mem
    obtain ⟨u, second, rfl⟩ := List.mem_map.1 mem
    rw [Way.append, List.append_assoc, ihq second, ihp first]
  | optional p ih =>
    rcases List.mem_append.1 mem with mem | mem
    · exact ih mem
    · rw [List.mem_singleton.1 mem]
      rfl
  | greedy test => exact append_rest_of_mem_runs mem
  | lazy test => exact append_rest_of_mem_runs (List.mem_reverse.1 mem)
  | group n p ih =>
    obtain ⟨v, inner, rfl⟩ := List.mem_map.1 mem
    have whole := ih inner
    exact whole

theorem append_rest {w : Way} (first : p.first? s = some w) : w.text ++ w.rest = s :=
  append_rest_of_mem_ways (List.mem_of_mem_head? first)

theorem rest_shorter {w : Way} (first : p.first? s = some w) (visible : w.text ≠ []) :
    w.rest.length < s.length := by
  rw [← append_rest first, List.length_append]
  exact Nat.lt_add_of_pos_left (List.length_pos_iff.2 visible)

/-- Two parts read nothing where the second cannot be read behind the first. -/
theorem ways_append_eq_nil (none : ∀ w ∈ p.ways s, q.ways w.rest = []) :
    (append p q).ways s = [] := by
  refine List.flatMap_eq_nil_iff.2 fun w mem => ?_
  rw [none w mem, List.map_nil]

/-- Two parts read nothing where the first cannot be read. -/
theorem ways_append_of_nil (q : Pattern) (none : p.ways s = []) : (append p q).ways s = [] := by
  rw [ways, none, List.flatMap_nil]

/-! ## The first way -/

/-- The way that a search takes keeps these groups and leaves this text. What it reads is the text
in front of that (`append_rest`). -/
def Leaves (p : Pattern) (s : List Char) (groups : List (Nat × List Char)) (rest : List Char) :
    Prop :=
  ∃ text, p.first? s = some ⟨text, groups, rest⟩

/-- A text without its first character, if that is of a kind. -/
def dropOne (test : Char → Bool) : List Char → List Char
  | [] => []
  | c :: s => if test c then s else c :: s

/-- What the first part leaves is read by the second, if it can be. -/
theorem Leaves.append {groups more : List (Nat × List Char)} {t u : List Char}
    (first : p.Leaves s groups t) (second : q.Leaves t more u) :
    (append p q).Leaves s (groups ++ more) u := by
  obtain ⟨text, first⟩ := first
  obtain ⟨later, second⟩ := second
  obtain ⟨others, first⟩ := List.head?_eq_some_iff.1 first
  obtain ⟨rest, second⟩ := List.head?_eq_some_iff.1 second
  refine ⟨text ++ later, ?_⟩
  rw [first?, ways, first, List.flatMap_cons, second, List.map_cons]
  rfl

theorem leaves_sequence_nil (s : List Char) : (sequence []).Leaves s [] s := ⟨[], rfl⟩

theorem Leaves.sequence_cons {parts : List Pattern} {groups more : List (Nat × List Char)}
    {t u : List Char} (first : p.Leaves s groups t) (later : (sequence parts).Leaves t more u) :
    (sequence (p :: parts)).Leaves s (groups ++ more) u := first.append later

theorem first?_optional (p : Pattern) (s : List Char) :
    (optional p).first? s = some ((p.first? s).getD (.stay s)) := by
  rw [first?, first?, ways, List.head?_append]
  cases (p.ways s).head? with
  | none => rfl
  | some w => rfl

theorem leaves_optional_char (test : Char → Bool) (s : List Char) :
    (optional (char test)).Leaves s [] (dropOne test s) := by
  rw [Leaves, first?_optional, first?]
  cases s with
  | nil => exact ⟨[], rfl⟩
  | cons c s =>
    rw [ways, dropOne]
    split
    · exact ⟨[c], rfl⟩
    · exact ⟨[], rfl⟩

theorem first?_group (n : Nat) (p : Pattern) (s : List Char) :
    (group n p).first? s = (p.first? s).map (.keep n) := List.head?_map

/-- A greedy run is as long as it can be. -/
theorem first?_greedy (test : Char → Bool) (s : List Char) :
    (greedy test).first? s = some ⟨s.takeWhile test, [], s.dropWhile test⟩ := by
  rw [first?, ways]
  induction s with
  | nil => rfl
  | cons c s ih =>
    rw [runs, List.takeWhile_cons, List.dropWhile_cons]
    split
    · rw [List.head?_append, List.head?_map, ih]
      rfl
    · rfl

/-- A lazy run is empty. -/
theorem first?_lazy (test : Char → Bool) (s : List Char) :
    (lazy test).first? s = some (.stay s) := by
  rw [first?, ways, List.head?_reverse]
  cases s with
  | nil => rfl
  | cons c s =>
    rw [runs]
    split
    · exact List.getLast?_concat
    · rfl

theorem leaves_group_greedy (n : Nat) (test : Char → Bool) (s : List Char) :
    (group n (greedy test)).Leaves s [(n, s.takeWhile test)] (s.dropWhile test) := by
  refine ⟨s.takeWhile test, ?_⟩
  rw [first?_group, first?_greedy]
  rfl

theorem leaves_group_lazy (n : Nat) (test : Char → Bool) (s : List Char) :
    (group n (lazy test)).Leaves s [(n, [])] s := by
  refine ⟨[], ?_⟩
  rw [first?_group, first?_lazy]
  rfl

/-- A run of one character at least, where there is one, is as long as it can be. -/
theorem leaves_atLeastOne {test : Char → Bool} {c : Char} (is : test c = true) (s : List Char) :
    (atLeastOne test).Leaves (c :: s) [] (s.dropWhile test) := by
  have one : (char test).Leaves (c :: s) [] s := by
    refine ⟨[c], ?_⟩
    rw [first?, ways, if_pos is]
    rfl
  exact one.append ⟨_, first?_greedy test s⟩

/-- A word is read in one way at most. -/
theorem ways_word (w s : List Char) :
    (word w).ways s =
      ((afterAnyCase? w s).map fun rest => (⟨s.take w.length, [], rest⟩ : Way)).toList := by
  induction w generalizing s with
  | nil => rfl
  | cons a w ih =>
    have parts : word (a :: w) = append (char fun d => a = d.toLower) (word w) := rfl
    rw [parts, ways]
    cases s with
    | nil => rfl
    | cons c s =>
      rw [ways, afterAnyCase?]
      by_cases same : a = c.toLower
      · rw [if_pos (decide_eq_true same), if_pos same, List.flatMap_singleton, ih]
        cases afterAnyCase? w s with
        | none => rfl
        | some rest => rfl
      · rw [if_neg (by simpa using same), if_neg same]
        rfl

theorem first?_group_word (n : Nat) (w s : List Char) :
    (group n (word w)).first? s = (afterAnyCase? w s).map fun rest =>
      ⟨s.take w.length, [(n, s.take w.length)], rest⟩ := by
  rw [first?_group, first?, ways_word, Option.head?_toList, Option.map_map]
  rfl

/-! ## Searches -/

/-- The matches in a text that begins at a place; a match has ended there if `ended`. -/
def findFrom (p : Pattern) (ended : Bool) (start : Nat) : List Char → List Match
  | [] =>
    match p.first? [] with
    | some w => if ended then [] else [⟨start, [], w.groups⟩]
    | none => []
  | c :: s =>
    match first : p.first? (c :: s) with
    | some w =>
      if visible : w.text ≠ [] then
        ⟨start, w.text, w.groups⟩ :: findFrom p true (start + w.text.length) w.rest
      else if ended then findFrom p false (start + 1) s
      else ⟨start, [], w.groups⟩ :: findFrom p false (start + 1) s
    | none => findFrom p false (start + 1) s
termination_by s => s.length
decreasing_by
  · exact rest_shorter first visible
  all_goals exact Nat.lt_succ_self s.length

/-- The matches in a text, one after the other. -/
def findAll (p : Pattern) (s : List Char) : List Match := p.findFrom false 0 s

/-- Where there is no way, the search goes on at the next character. -/
theorem findFrom_of_none {ended : Bool} {start : Nat} {c : Char}
    (none : p.first? (c :: s) = none) :
    p.findFrom ended start (c :: s) = p.findFrom false (start + 1) s := by
  rw [findFrom]
  split
  next found =>
    rw [none] at found
    cases found
  next => rfl

/-- Where there is one, it goes on behind what was read. -/
theorem findFrom_of_some {ended : Bool} {start : Nat} {c : Char} {w : Way}
    (first : p.first? (c :: s) = some w) (visible : w.text ≠ []) :
    p.findFrom ended start (c :: s) =
      ⟨start, w.text, w.groups⟩ :: p.findFrom true (start + w.text.length) w.rest := by
  rw [findFrom]
  split
  next found =>
    rw [first] at found
    cases found
    rw [dif_pos visible]
  next none =>
    rw [first] at none
    cases none

/-- A match stands in the text, which begins at a place, where it is said to begin. -/
theorem standsIn_of_mem_findFrom {ended : Bool} {start : Nat} {m : Match}
    (mem : m ∈ p.findFrom ended start s) : m.StandsIn start s := by
  fun_induction findFrom p ended start s with
  | case1 => cases mem
  | case2 start w first =>
    rw [List.mem_singleton.1 mem]
    exact .head _ _ []
  | case3 => cases mem
  | case4 ended start c s w first visible ih =>
    rw [← append_rest first]
    rcases List.mem_cons.1 mem with rfl | mem
    · exact .head ..
    · exact (ih mem).behind w.text
  | case5 start c s w first idle ih => exact (ih mem).behind [c]
  | case6 ended start c s w first idle fresh ih =>
    rcases List.mem_cons.1 mem with rfl | mem
    · exact .head _ _ (c :: s)
    · exact (ih mem).behind [c]
  | case7 ended start c s none ih => exact (ih mem).behind [c]

/-- Matches do not overlap. -/
theorem findFrom_pairwise (p : Pattern) (ended : Bool) (start : Nat) (s : List Char) :
    (p.findFrom ended start s).Pairwise fun m n => m.stop ≤ n.start := by
  fun_induction findFrom p ended start s with
  | case1 => exact .nil
  | case2 => exact List.pairwise_singleton ..
  | case3 => exact .nil
  | case4 ended start c s w first visible ih =>
    exact .cons (fun m mem => (standsIn_of_mem_findFrom mem).start_le) ih
  | case5 start c s w first idle ih => exact ih
  | case6 ended start c s w first idle fresh ih =>
    exact .cons (fun m mem => Nat.le_of_succ_le (standsIn_of_mem_findFrom mem).start_le) ih
  | case7 ended start c s none ih => exact ih

end Pattern

end StyleModule.Text
