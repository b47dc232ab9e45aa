import StyleModule.Proofs.Name.Legal
import StyleModule.Proofs.Text.Margins

/-!
# Words in names

A name that spells words, with marks between them, is turned into the words in camel case, whatever
the marks are and whatever follows the first sign of a query (`toIdentifier_of_spells`).

Everything hangs on one equation: a text that is cut at a separator runs together as its two parts do
(`runTogether_append_cons`). A word with digits in it is cut in front of each of them, but runs
together as it was, since a digit is its own capital (`runTogether_spaced`).
-/

namespace StyleModule.Name

/-! ## Letters and digits -/

/-- A small letter or a digit. -/
def isPlain (c : Char) : Bool := c.isLower || c.isDigit

theorem isAlphanum_of_isPlain {c : Char} (h : isPlain c = true) : c.isAlphanum = true := by
  show (c.isUpper || c.isLower || c.isDigit) = true
  rcases Bool.or_eq_true_iff.1 h with lower | digit
  · rw [lower, Bool.or_true, Bool.true_or]
  · rw [digit, Bool.or_true]

theorem isPlain_of_isLower {c : Char} (small : c.isLower = true) : isPlain c = true := by
  rw [isPlain, small, Bool.true_or]

theorem isPlain_of_isDigit {c : Char} (digit : c.isDigit = true) : isPlain c = true := by
  rw [isPlain, digit, Bool.or_true]

theorem not_isDigit_of_isLower {c : Char} (small : c.isLower = true) : c.isDigit = false := by
  have letter : c.isLower = true → c.isDigit = false :=
    of_isAlphanum (by decide) (isAlphanum_of_isPlain (isPlain_of_isLower small))
  exact letter small

/-- A letter or a digit stands within a word, and the case of it is that of ASCII. -/
structure Simple (c : Char) : Prop where
  within : isSeparator c = false
  named : beginsQuery c = false
  dark : Text.isBlank c = false
  lower : Text.lower c = [c.toLower]
  upper : Text.upper c.toLower = [c.toUpper]

theorem simple_of_isAlphanum {c : Char} (h : c.isAlphanum = true) : Simple c := by
  have row : isSeparator c = false ∧ beginsQuery c = false ∧ Text.isBlank c = false ∧
      Text.lower c = [c.toLower] ∧ Text.upper c.toLower = [c.toUpper] :=
    of_isAlphanum (by decide) h
  obtain ⟨within, named, dark, lower, upper⟩ := row
  exact ⟨within, named, dark, lower, upper⟩

/-- The capital of a letter or a digit is one; what is no small letter is its own. -/
theorem toUpper_of_isAlphanum {c : Char} (h : c.isAlphanum = true) :
    c.toUpper.isAlphanum = true ∧ (c.isLower = false → c.toUpper = c) :=
  of_isAlphanum (by decide) h

/-- A small letter or a digit is its own small form, and that of its capital. -/
theorem toLower_of_isPlain {c : Char} (h : isPlain c = true) :
    c.toLower = c ∧ c.toUpper.toLower = c := by
  have row : isPlain c = true → c.toLower = c ∧ c.toUpper.toLower = c :=
    of_isAlphanum (by decide) (isAlphanum_of_isPlain h)
  exact row h

/-- A letter or a digit begins a word of its own, unless it is a small letter. -/
theorem spaced_cons {c : Char} (h : c.isAlphanum = true) (s : List Char) :
    spaced (c :: s) = if c.isLower then c :: spaced s else ' ' :: c :: spaced s := by
  have turns : (c.isUpper || c.isDigit) = !c.isLower := of_isAlphanum (by decide) h
  rw [spaced, List.flatMap_cons, turns]
  cases c.isLower <;> rfl

/-! ## Running words together -/

/-- The words of a text, run together. -/
def runTogether (s : List Char) : List Char := joinWords (s.splitOnP isSeparator)

theorem runTogether_append_cons {c : Char} (separates : isSeparator c = true) (a b : List Char) :
    runTogether (a ++ c :: b) = runTogether a ++ runTogether b := by
  rw [runTogether, List.splitOnP_append_cons a b separates, joinWords, List.flatMap_append]
  rfl

theorem runTogether_gap_append {gap : List Char} (separates : ∀ c ∈ gap, isSeparator c = true)
    (s : List Char) : runTogether (gap ++ s) = runTogether s := by
  induction gap with
  | nil => rfl
  | cons c gap ih =>
    have first := runTogether_append_cons (separates c List.mem_cons_self) [] (gap ++ s)
    exact first.trans (ih fun d mem => separates d (List.mem_cons_of_mem c mem))

theorem runTogether_append_gap {gap : List Char} (separates : ∀ c ∈ gap, isSeparator c = true)
    (s : List Char) : runTogether (s ++ gap) = runTogether s := by
  cases gap with
  | nil => rw [List.append_nil]
  | cons c gap =>
    have rest := runTogether_gap_append (fun d mem => separates d (List.mem_cons_of_mem c mem)) []
    rw [List.append_nil] at rest
    rw [runTogether_append_cons (separates c List.mem_cons_self), rest]
    exact List.append_nil _

/-- The blanks at the ends of a text make no difference where all its blanks separate words. -/
theorem runTogether_trim {s : List Char}
    (blank : ∀ c ∈ s, Text.isBlank c = true → isSeparator c = true) :
    runTogether (Text.trim s) = runTogether s := by
  have margins := Text.margins_trim s
  have whole := Text.head_core_tail s
  have separates : ∀ margin : List Char, Text.allBlank margin = true → margin ⊆ s →
      ∀ c ∈ margin, isSeparator c = true := by
    intro margin blanks within c mem
    exact blank c (within mem) (List.all_eq_true.1 blanks c mem)
  have leading := separates _ margins.leading_blank
    (List.IsInfix.subset ⟨[], _, by rw [List.nil_append, ← List.append_assoc, whole]⟩)
  have trailing := separates _ margins.trailing_blank
    (List.IsInfix.subset ⟨_, [], by rw [List.append_nil, whole]⟩)
  calc runTogether (Text.trim s)
      = runTogether (Text.trim s ++ Text.blankTail s) := (runTogether_append_gap trailing _).symm
    _ = runTogether (Text.blankHead s ++ (Text.trim s ++ Text.blankTail s)) :=
        (runTogether_gap_append leading _).symm
    _ = runTogether s := by rw [← List.append_assoc, whole]

/-- A letter or a digit with small letters and digits behind it is one word. -/
theorem runTogether_word {c : Char} {s : List Char} (first : c.isAlphanum = true)
    (rest : ∀ d ∈ s, isPlain d = true) : runTogether (c :: s) = c.toUpper :: s := by
  have simple := simple_of_isAlphanum first
  have plain : ∀ d ∈ s, Simple d := fun d mem =>
    simple_of_isAlphanum (isAlphanum_of_isPlain (rest d mem))
  have one : (c :: s).splitOnP isSeparator = [c :: s] := by
    apply List.splitOnP_eq_singleton
    exact List.forall_mem_cons.2 ⟨simple.within, fun d mem => (plain d mem).within⟩
  have small : Text.lowerAll s = s := by
    have each : ∀ d ∈ s, Text.lower d = [d] := by
      intro d mem
      rw [(plain d mem).lower, (toLower_of_isPlain (rest d mem)).1]
    rw [Text.lowerAll, List.flatMap_congr each, List.flatMap_singleton']
  have lowered : Text.lowerAll (c :: s) = c.toLower :: s := by
    rw [Text.lowerAll, List.flatMap_cons, simple.lower, ← Text.lowerAll, small]
    rfl
  rw [runTogether, one, joinWords, List.flatMap_singleton, lowered, Text.capitalize, simple.upper]
  rfl

/-- Letters and digits that are cut in front of each capital and each digit run together as they
were, behind a word. -/
theorem runTogether_append_spaced {c : Char} {word s : List Char} (first : c.isAlphanum = true)
    (rest : ∀ d ∈ word, isPlain d = true) (alphanum : ∀ d ∈ s, d.isAlphanum = true) :
    runTogether (c :: word ++ spaced s) = c.toUpper :: word ++ s := by
  induction s generalizing c word with
  | nil =>
    rw [spaced, List.flatMap_nil, List.append_nil, List.append_nil]
    exact runTogether_word first rest
  | cons d s ih =>
    have next := alphanum d List.mem_cons_self
    have later : ∀ e ∈ s, e.isAlphanum = true :=
      fun e mem => alphanum e (List.mem_cons_of_mem d mem)
    rw [spaced_cons next]
    split
    next lower =>
      have longer : ∀ e ∈ word ++ [d], isPlain e = true := by
        intro e mem
        rcases List.mem_append.1 mem with mem | mem
        · exact rest e mem
        · exact List.mem_singleton.1 mem ▸ isPlain_of_isLower lower
      have grown := ih first longer later
      simpa using grown
    next other =>
      have own := (toUpper_of_isAlphanum next).2 (by simpa using other)
      have begun := ih next (List.forall_mem_nil _) later
      rw [runTogether_append_cons (by decide), runTogether_word first rest]
      exact congrArg (c.toUpper :: word ++ ·) (begun.trans (by rw [own]; rfl))

/-! ## Names that spell words -/

/-- The characters that may stand between words. -/
def gapMarks : List Char := "- |;$%@\"<>()+,.\x7b\x7d_!/\\".toList

/-- The characters that may begin what is no part of a name. -/
def tailMarks : List Char := "?#&=".toList

/-- A word of small letters and digits. -/
structure IsWord (word : List Char) : Prop where
  some : word ≠ []
  plain : ∀ c ∈ word, isPlain c = true

/-- The text is the words in order, with marks between each two of them. -/
inductive Spelled : List (List Char) → List Char → Prop
  | last {word : List Char} (isWord : IsWord word) : Spelled [word] word
  | more {word gap s : List Char} {words : List (List Char)} (isWord : IsWord word)
      (some : gap ≠ []) (marks : gap ⊆ gapMarks) (rest : Spelled words s) :
      Spelled (word :: words) (word ++ gap ++ s)

/-- The name spells the words: there may be marks in front of them and behind them, and a tail. -/
inductive Spells : List (List Char) → List Char → Prop
  | intro {words : List (List Char)} {before spelled after tail : List Char}
      (opening : before ⊆ gapMarks) (middle : Spelled words spelled) (closing : after ⊆ gapMarks)
      (marked : ∀ c ∈ tail.head?, c ∈ tailMarks) :
      Spells words (before ++ spelled ++ after ++ tail)

/-- A word with its first letter a capital. -/
def raised : List Char → List Char
  | [] => []
  | c :: s => c.toUpper :: s

/-- Words in camel case: the first as it is, each other with its first letter a capital. -/
def camelCase : List (List Char) → List Char
  | [] => []
  | word :: words => word ++ words.flatMap raised

theorem isSeparator_of_mem_gapMarks : ∀ c ∈ gapMarks, isSeparator c = true := by
  have table : gapMarks.all isSeparator = true := by decide
  exact List.all_eq_true.1 table

/-- A mark is no capital, no digit and no sign of a query. -/
theorem of_mem_gapMarks : ∀ c ∈ gapMarks,
    (c.isUpper || c.isDigit) = false ∧ beginsQuery c = false := by
  have table : (gapMarks.all fun c => !(c.isUpper || c.isDigit) && !beginsQuery c) = true := by
    decide
  intro c mem
  have row := List.all_eq_true.1 table c mem
  rwa [Bool.and_eq_true, Bool.not_eq_true', Bool.not_eq_true'] at row

theorem spaced_append (a b : List Char) : spaced (a ++ b) = spaced a ++ spaced b :=
  List.flatMap_append

theorem spaced_gap {gap : List Char} (marks : gap ⊆ gapMarks) : spaced gap = gap := by
  have each : ∀ c ∈ gap, (if c.isUpper || c.isDigit then [' ', c] else [c]) = [c] := by
    intro c mem
    rw [(of_mem_gapMarks c (marks mem)).1]
    rfl
  rw [spaced, List.flatMap_congr each, List.flatMap_singleton']

theorem IsWord.alphanum {word : List Char} (h : IsWord word) : ∀ c ∈ word, c.isAlphanum = true :=
  fun c mem => isAlphanum_of_isPlain (h.plain c mem)

/-- Letters and digits run together as they were, with the first letter a capital, wherever they are
cut. -/
theorem runTogether_spaced {w : List Char} (alphanum : ∀ c ∈ w, c.isAlphanum = true) :
    runTogether (spaced w) = raised w := by
  cases w with
  | nil => rfl
  | cons c s =>
    obtain ⟨first, rest⟩ := List.forall_mem_cons.1 alphanum
    have word := runTogether_append_spaced first (List.forall_mem_nil _) rest
    rw [spaced_cons first]
    split
    next => exact word
    next => exact (runTogether_append_cons (by decide) [] _).trans word

/-- Words run together as their capitals begin, whatever stands between them. -/
theorem Spelled.runTogether_spaced {words : List (List Char)} {s : List Char}
    (h : Spelled words s) : runTogether (spaced s) = words.flatMap raised := by
  induction h with
  | last isWord => rw [Name.runTogether_spaced isWord.alphanum, List.flatMap_singleton]
  | @more word gap s words isWord some marks rest ih =>
    have separates : ∀ c ∈ gap, isSeparator c = true := fun c mem =>
      isSeparator_of_mem_gapMarks c (marks mem)
    obtain ⟨c, gap, rfl⟩ := List.exists_cons_of_ne_nil some
    rw [spaced_append, spaced_append, spaced_gap marks, List.append_assoc, List.cons_append,
      runTogether_append_cons (separates c List.mem_cons_self),
      Name.runTogether_spaced isWord.alphanum,
      runTogether_gap_append fun d mem => separates d (List.mem_cons_of_mem c mem), ih,
      List.flatMap_cons]

theorem Spelled.isWord {words : List (List Char)} {s : List Char} (h : Spelled words s) :
    ∀ word ∈ words, IsWord word := by
  induction h with
  | last isWord => exact List.forall_mem_singleton.2 isWord
  | more isWord _ _ _ ih => exact List.forall_mem_cons.2 ⟨isWord, ih⟩

theorem Spelled.ne_nil {words : List (List Char)} {s : List Char} (h : Spelled words s) :
    words ≠ [] := by
  cases h <;> exact List.cons_ne_nil _ _

/-- A character of spelled words stands in a word or between words. -/
theorem Spelled.mem_cases {words : List (List Char)} {s : List Char} (h : Spelled words s) :
    ∀ c ∈ s, isPlain c = true ∨ c ∈ gapMarks := by
  induction h with
  | last isWord => exact fun c mem => .inl (isWord.plain c mem)
  | more isWord _ marks _ ih =>
    intro c mem
    rcases List.mem_append.1 mem with mem | mem
    · rcases List.mem_append.1 mem with mem | mem
      · exact .inl (isWord.plain c mem)
      · exact .inr (marks mem)
    · exact ih c mem

/-! ## Identifiers -/

/-- With a small first letter, words that run together are in camel case. -/
theorem uncapitalize_raised {words : List (List Char)} (isWord : ∀ word ∈ words, IsWord word) :
    uncapitalize (words.flatMap raised) = camelCase words := by
  cases words with
  | nil => rfl
  | cons word words =>
    have first := isWord word List.mem_cons_self
    obtain ⟨c, s, rfl⟩ := List.exists_cons_of_ne_nil first.some
    have small := (toLower_of_isPlain (first.plain c List.mem_cons_self)).2
    rw [List.flatMap_cons, raised, List.cons_append, uncapitalize, small]
    rfl

theorem isAlphanum_of_mem_raised {w : List Char} (alphanum : ∀ c ∈ w, c.isAlphanum = true) :
    ∀ c ∈ raised w, c.isAlphanum = true := by
  cases w with
  | nil => exact alphanum
  | cons d s =>
    obtain ⟨first, rest⟩ := List.forall_mem_cons.1 alphanum
    exact List.forall_mem_cons.2 ⟨(toUpper_of_isAlphanum first).1, rest⟩

theorem isAlphanum_of_mem_flatMap_raised {words : List (List Char)}
    (isWord : ∀ word ∈ words, IsWord word) : ∀ c ∈ words.flatMap raised, c.isAlphanum = true := by
  intro c mem
  obtain ⟨word, inside, mem⟩ := List.mem_flatMap.1 mem
  exact isAlphanum_of_mem_raised (isWord word inside).alphanum c mem

/-- What precedes a tail is read as the name. -/
theorem takeWhile_tail {core tail : List Char} (named : ∀ c ∈ core, beginsQuery c = false)
    (marked : ∀ c ∈ tail.head?, c ∈ tailMarks) :
    (core ++ tail).takeWhile (fun c => !beginsQuery c) = core := by
  have table : tailMarks.all beginsQuery = true := by decide
  have all : ∀ c ∈ core, (!beginsQuery c) = true := by
    intro c mem
    rw [named c mem]
    rfl
  rw [List.takeWhile_append_of_pos all]
  cases tail with
  | nil => rw [List.takeWhile_nil, List.append_nil]
  | cons c tail =>
    have none : (c :: tail).takeWhile (fun c => !beginsQuery c) = [] := by
      apply List.takeWhile_cons_of_neg
      rw [List.all_eq_true.1 table c (marked c rfl)]
      exact Bool.false_ne_true
    rw [none, List.append_nil]

/-- The words of a text without tail are found in the whole of it. -/
theorem joinWords_wordsOf {core tail : List Char}
    (alphanum : ∀ c ∈ core, c.isAlphanum = true ∨ c ∈ gapMarks)
    (marked : ∀ c ∈ tail.head?, c ∈ tailMarks) :
    joinWords (wordsOf (core ++ tail)) = runTogether (spaced core) := by
  have named : ∀ c ∈ core, beginsQuery c = false := by
    intro c mem
    rcases alphanum c mem with letter | mark
    · exact (simple_of_isAlphanum letter).named
    · exact (of_mem_gapMarks c mark).2
  have blank : ∀ c ∈ spaced core, Text.isBlank c = true → isSeparator c = true := by
    intro c mem blank
    obtain ⟨d, inside, mem⟩ := List.mem_flatMap.1 mem
    have cases : c = ' ' ∨ c = d := by
      split at mem
      · simpa using mem
      · exact .inr (List.mem_singleton.1 mem)
    rcases cases with rfl | rfl
    · decide
    rcases alphanum c inside with letter | mark
    · rw [(simple_of_isAlphanum letter).dark] at blank
      cases blank
    · exact isSeparator_of_mem_gapMarks c mark
  rw [wordsOf, takeWhile_tail named marked]
  exact runTogether_trim blank

/-- What a name that spells words is turned into, but for the underscore. -/
theorem Spells.identifierOf {words : List (List Char)} {name : List Char} (h : Spells words name) :
    Name.identifierOf name = protect (camelCase words) := by
  obtain @⟨before, spelled, after, tail, opening, middle, closing, marked⟩ := h
  have letters : ∀ c ∈ spelled, c.isAlphanum = true ∨ c ∈ gapMarks :=
    fun c mem => (middle.mem_cases c mem).imp_left isAlphanum_of_isPlain
  have alphanum : ∀ c ∈ before ++ spelled ++ after, c.isAlphanum = true ∨ c ∈ gapMarks := by
    intro c mem
    rcases List.mem_append.1 mem with mem | mem
    · exact (List.mem_append.1 mem).elim (fun mem => .inr (opening mem)) (letters c)
    · exact .inr (closing mem)
  have together : runTogether (spaced (before ++ spelled ++ after)) = words.flatMap raised := by
    rw [spaced_append, spaced_append, spaced_gap opening, spaced_gap closing,
      runTogether_append_gap fun c mem => isSeparator_of_mem_gapMarks c (closing mem),
      runTogether_gap_append fun c mem => isSeparator_of_mem_gapMarks c (opening mem),
      middle.runTogether_spaced]
  rw [Name.identifierOf, joinWords_wordsOf alphanum marked, together,
    List.filter_eq_self.2 (isAlphanum_of_mem_flatMap_raised middle.isWord),
    uncapitalize_raised middle.isWord]

theorem ofList_protect (s : List Char) :
    String.ofList (protect s) =
      if s.head?.any Char.isDigit = true ∨ String.ofList s ∈ keywords then "_" ++ String.ofList s
      else String.ofList s := by
  rw [protect_eq]
  split
  · rw [← String.toList_inj, String.toList_append, String.toList_ofList, String.toList_ofList,
      String.toList_ofList]
    rfl
  · rfl

theorem Spells.isWord {words : List (List Char)} {name : List Char} (h : Spells words name) :
    words ≠ [] ∧ ∀ word ∈ words, IsWord word := by
  obtain ⟨_, spelled, _, _⟩ := h
  exact ⟨spelled.ne_nil, spelled.isWord⟩

/-- Every word but the first brings a capital or a digit into camel case. -/
theorem exists_not_isLower_mem_camelCase {second : List Char} (isWord : IsWord second)
    (first : List Char) (words : List (List Char)) :
    ∃ c ∈ camelCase (first :: second :: words), c.isLower = false := by
  obtain ⟨c, s, rfl⟩ := List.exists_cons_of_ne_nil isWord.some
  have capital : c.toUpper.isLower = false :=
    of_isAlphanum (by decide) (isWord.alphanum c List.mem_cons_self)
  refine ⟨c.toUpper, List.mem_append_right _ ?_, capital⟩
  exact List.mem_flatMap.2 ⟨c :: s, List.mem_cons_self, List.mem_cons_self⟩

/-- A name that spells words is turned into a given word of small letters, if that is no keyword,
just where it spells that word and no other. -/
theorem Spells.toIdentifier_eq_iff {words : List (List Char)} {name word : String}
    (h : Spells words name.toList) (small : ∀ c ∈ word.toList, c.isLower = true)
    (free : word ∉ keywords) : toIdentifier name = word ↔ words = [word.toList] := by
  have read : toIdentifier name = word ↔ protect (camelCase words) = word.toList := by
    rw [toIdentifier, h.identifierOf, ← String.toList_inj, String.toList_ofList]
  have unmarked : '_' ∉ word.toList := fun mem => by cases small _ mem
  rw [read]
  obtain ⟨some, isWord⟩ := h.isWord
  constructor
  · intro same
    have bare : camelCase words = word.toList := by
      rw [protect_eq] at same
      split at same
      next => exact absurd (same ▸ List.mem_cons_self) unmarked
      next => exact same
    obtain ⟨first, later, rfl⟩ := List.exists_cons_of_ne_nil some
    cases later with
    | nil =>
      rw [camelCase, List.flatMap_nil, List.append_nil] at bare
      rw [bare]
    | cons second rest =>
      have second : IsWord second := isWord second (by simp)
      obtain ⟨c, mem, capital⟩ := exists_not_isLower_mem_camelCase second first rest
      rw [bare] at mem
      rw [small c mem] at capital
      cases capital
  · rintro rfl
    have letter : word.toList.head?.any Char.isDigit = false := by
      cases letters : word.toList with
      | nil => rfl
      | cons c s => exact not_isDigit_of_isLower (small c (letters ▸ List.mem_cons_self))
    rw [camelCase, List.flatMap_nil, List.append_nil, protect_eq, letter, String.ofList_toList,
      if_neg (by simpa using free)]

/-- A name that spells words is turned into the words in camel case, with an underscore in front just
where that begins with a digit or is a keyword. So names that spell the same words are turned into
the same identifier. -/
theorem toIdentifier_of_spells {words : List (List Char)} {name : String}
    (h : Spells words name.toList) :
    (toIdentifier name =
      if (camelCase words).head?.any Char.isDigit = true ∨ String.ofList (camelCase words) ∈ keywords
      then "_" ++ String.ofList (camelCase words)
      else String.ofList (camelCase words)) ∧
      ∀ other : String, Spells words other.toList → toIdentifier other = toIdentifier name := by
  constructor
  · rw [toIdentifier, h.identifierOf, ofList_protect]
  · intro other same
    rw [toIdentifier, toIdentifier, h.identifierOf, same.identifierOf]

theorem subset_gapMarks {gap : List Char} (h : gap.all gapMarks.contains = true) :
    gap ⊆ gapMarks :=
  fun c mem => List.contains_iff_mem.1 (List.all_eq_true.1 h c mem)

/-- Marks of many kinds, digits in and in front of words, and a tail. -/
theorem toIdentifier_of_spells_column :
    Spells ["1col".toList, "x2y".toList, "css".toList] " _1col$-(x2y).css/ ?v=1".toList ∧
      toIdentifier " _1col$-(x2y).css/ ?v=1" = "_1colX2yCss" ∧
      toIdentifier "1col x2y css" = toIdentifier " _1col$-(x2y).css/ ?v=1" := by
  have first : IsWord "1col".toList := ⟨by decide, List.all_eq_true.1 (by decide)⟩
  have second : IsWord "x2y".toList := ⟨by decide, List.all_eq_true.1 (by decide)⟩
  have third : IsWord "css".toList := ⟨by decide, List.all_eq_true.1 (by decide)⟩
  have marked : ∀ c ∈ "?v=1".toList.head?, c ∈ tailMarks := by
    rintro _ ⟨⟩
    decide
  have spells : Spells ["1col".toList, "x2y".toList, "css".toList]
      (" _".toList ++ ("1col".toList ++ "$-(".toList ++
        ("x2y".toList ++ ").".toList ++ "css".toList)) ++ "/ ".toList ++ "?v=1".toList) := by
    apply Spells.intro _ _ _ marked
    · exact subset_gapMarks (by decide)
    · apply Spelled.more first (by decide) (subset_gapMarks (by decide))
      exact .more second (by decide) (subset_gapMarks (by decide)) (.last third)
    · exact subset_gapMarks (by decide)
  have plain : Spells ["1col".toList, "x2y".toList, "css".toList]
      ([] ++ ("1col".toList ++ " ".toList ++
        ("x2y".toList ++ " ".toList ++ "css".toList)) ++ [] ++ []) := by
    have unmarked : ∀ c ∈ ([] : List Char).head?, c ∈ tailMarks := by rintro _ ⟨⟩
    apply Spells.intro (List.nil_subset _) _ (List.nil_subset _) unmarked
    apply Spelled.more first (by decide) (subset_gapMarks (by decide))
    exact .more second (by decide) (subset_gapMarks (by decide)) (.last third)
  have whole : Spells ["1col".toList, "x2y".toList, "css".toList]
      " _1col$-(x2y).css/ ?v=1".toList := spells
  obtain ⟨camel, same⟩ := toIdentifier_of_spells whole
  refine ⟨spells, camel.trans ?_, same "1col x2y css" plain⟩
  decide +kernel

end StyleModule.Name
