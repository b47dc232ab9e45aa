import StyleModule.Css.Selector
import StyleModule.Proofs.Text.Margins

/-!
# Outside brackets

Commas, combinators and colons count where no bracket is open. `bracketsThrough` says how many are
open after a text, and `hasOutside` whether such a character stands in a text outside all of them.
Each of the readers of a selector is told by these two, for a text with another behind it:
`splitList_append` for the list, `cutLastCompound_behind` for the last compound, `addClass_append`
for the first colon in it.

The readers count both kinds of brackets together. `bracketsThrough_of_closesAll` says that this is
as good as counting each kind for itself. `scopeList_listText` takes a list apart into selectors.
-/

namespace StyleModule.Css

/-- How many brackets are open after a text. -/
def bracketsThrough (depth : Nat) (s : List Char) : Nat := s.foldl bracketsAfter depth

theorem bracketsThrough_append (depth : Nat) (a b : List Char) :
    bracketsThrough depth (a ++ b) = bracketsThrough (bracketsThrough depth a) b :=
  List.foldl_append

/-- Does such a character stand in a text where no bracket is open? -/
def hasOutside (sign : Char → Bool) : Nat → List Char → Bool
  | _, [] => false
  | depth, c :: s => (depth == 0 && sign c) || hasOutside sign (bracketsAfter depth c) s

section HasOutside

variable {sign : Char → Bool}

theorem hasOutside_append (depth : Nat) (a b : List Char) :
    hasOutside sign depth (a ++ b) =
      (hasOutside sign depth a || hasOutside sign (bracketsThrough depth a) b) := by
  induction a generalizing depth with
  | nil => rfl
  | cons c a ih =>
    rw [List.cons_append, hasOutside, hasOutside, ih, Bool.or_assoc]
    rfl

theorem hasOutside_eq_false_of_not_mem {s : List Char} (absent : ∀ c ∈ s, sign c = false)
    (depth : Nat) : hasOutside sign depth s = false := by
  induction s generalizing depth with
  | nil => rfl
  | cons c s ih =>
    obtain ⟨here, later⟩ := List.forall_mem_cons.1 absent
    rw [hasOutside, here, ih later, Bool.and_false, Bool.or_false]

end HasOutside

/-- A character that is no bracket. -/
def isPlain (c : Char) : Bool := !(c == '(' || c == ')' || c == '[' || c == ']')

theorem bracketsAfter_plain {c : Char} (plain : isPlain c = true) (depth : Nat) :
    bracketsAfter depth c = depth := by
  simp only [isPlain, Bool.not_eq_true', Bool.or_eq_false_iff, beq_eq_false_iff_ne] at plain
  simp [bracketsAfter, plain]

theorem bracketsThrough_plain {s : List Char} (plain : ∀ c ∈ s, isPlain c = true) (depth : Nat) :
    bracketsThrough depth s = depth := by
  induction s with
  | nil => rfl
  | cons c s ih =>
    obtain ⟨here, later⟩ := List.forall_mem_cons.1 plain
    rw [bracketsThrough, List.foldl_cons, bracketsAfter_plain here]
    exact ih later

/-- Such characters are all in brackets, and the brackets are closed at the end of the text. -/
def Hides (sign : Char → Bool) (s : List Char) : Prop :=
  hasOutside sign 0 s = false ∧ bracketsThrough 0 s = 0

instance (sign : Char → Bool) (s : List Char) : Decidable (Hides sign s) :=
  inferInstanceAs (Decidable (_ ∧ _))

section Hides

variable {sign : Char → Bool} {a b : List Char}

theorem Hides.append (here : Hides sign a) (behind : Hides sign b) : Hides sign (a ++ b) := by
  constructor
  · rw [hasOutside_append, here.1, here.2, behind.1, Bool.or_false]
  · rw [bracketsThrough_append, here.2, behind.2]

theorem hides_nil : Hides sign [] := ⟨rfl, rfl⟩

theorem hides_of_plain (plain : ∀ c ∈ a, isPlain c = true ∧ sign c = false) : Hides sign a :=
  ⟨hasOutside_eq_false_of_not_mem (fun c mem => (plain c mem).2) 0,
    bracketsThrough_plain (fun c mem => (plain c mem).1) 0⟩

theorem hides_flatMap {α : Type} {write : α → List Char} {list : List α}
    (each : ∀ x ∈ list, Hides sign (write x)) : Hides sign (list.flatMap write) := by
  induction list with
  | nil => exact hides_nil
  | cons x list ih =>
    obtain ⟨here, later⟩ := List.forall_mem_cons.1 each
    rw [List.flatMap_cons]
    exact here.append (ih later)

end Hides

/-! ## Closed brackets -/

/-- Are the brackets of one kind closed in the right number, and none before it was opened, with so
many open before the text? -/
def closesAll (opening closing : Char) : Nat → List Char → Bool
  | depth, [] => depth == 0
  | depth, c :: s =>
    if c = opening then closesAll opening closing (depth + 1) s
    else if c = closing then depth != 0 && closesAll opening closing (depth - 1) s
    else closesAll opening closing depth s

/-- An argument whose round brackets are closed is found in front of the bracket behind it. -/
theorem closeArgument_of_closesAll {depth : Nat} {argument : List Char}
    (closed : closesAll '(' ')' depth argument = true) (s : List Char) :
    closeArgument depth (argument ++ ')' :: s) = some (argument, s) := by
  induction argument generalizing depth with
  | nil =>
    rw [closesAll, beq_iff_eq] at closed
    subst closed
    rfl
  | cons c argument ih =>
    rw [closesAll] at closed
    by_cases opens : c = '('
    · rw [if_pos opens] at closed
      simp [closeArgument, opens, ih closed]
    · rw [if_neg opens] at closed
      by_cases closes : c = ')'
      · rw [if_pos closes, Bool.and_eq_true] at closed
        obtain ⟨some, later⟩ := closed
        cases depth with
        | zero => cases some
        | succ depth =>
          rw [Nat.add_sub_cancel] at later
          simp [closeArgument, closes, ih later]
      · rw [if_neg closes] at closed
        simp [closeArgument, opens, closes, ih closed]

/-- Where the brackets of both kinds are closed, each for itself, as many are open behind a text as
before it; and if any are, nothing in the text is outside. -/
theorem bracketsThrough_of_closesAll (sign : Char → Bool) (depth : Nat) {round square : Nat}
    {s : List Char} (rounds : closesAll '(' ')' round s = true) (squares : closesAll '[' ']' square s = true) :
    bracketsThrough (depth + round + square) s = depth ∧
      (depth ≠ 0 → hasOutside sign (depth + round + square) s = false) := by
  induction s generalizing round square with
  | nil =>
    rw [closesAll, beq_iff_eq] at rounds squares
    subst rounds squares
    exact ⟨rfl, fun _ => rfl⟩
  | cons c s ih =>
    have through : ∀ before, bracketsThrough before (c :: s) =
        bracketsThrough (bracketsAfter before c) s := fun _ => rfl
    have outside : ∀ before, before ≠ 0 → hasOutside sign before (c :: s) =
        hasOutside sign (bracketsAfter before c) s := by
      intro before some
      rw [hasOutside, beq_false_of_ne some, Bool.false_and, Bool.false_or]
    -- what the counters are behind the character is what they are for the rest
    suffices next : ∃ round' square', closesAll '(' ')' round' s = true ∧
        closesAll '[' ']' square' s = true ∧
        bracketsAfter (depth + round + square) c = depth + round' + square' by
      obtain ⟨round', square', rounds', squares', after⟩ := next
      obtain ⟨level, inside⟩ := ih rounds' squares'
      rw [through, after]
      refine ⟨level, fun some => ?_⟩
      rw [outside _ (by omega), after]
      exact inside some
    rw [closesAll] at rounds squares
    by_cases roundOpens : c = '('
    · subst roundOpens
      exact ⟨round + 1, square, rounds, squares, by simp [bracketsAfter]; omega⟩
    by_cases roundCloses : c = ')'
    · subst roundCloses
      simp at rounds squares
      exact ⟨round - 1, square, rounds.2, squares, by simp [bracketsAfter]; omega⟩
    by_cases squareOpens : c = '['
    · subst squareOpens
      exact ⟨round, square + 1, rounds, squares, by simp [bracketsAfter]; omega⟩
    by_cases squareCloses : c = ']'
    · subst squareCloses
      simp at rounds squares
      exact ⟨round, square - 1, rounds, squares.2, by simp [bracketsAfter]; omega⟩
    · rw [if_neg roundOpens, if_neg roundCloses] at rounds
      rw [if_neg squareOpens, if_neg squareCloses] at squares
      exact ⟨round, square, rounds, squares, by simp [bracketsAfter, *]⟩

/-! ## The parts of a list -/

def isComma (c : Char) : Bool := c == ','

/-- A text whose commas are all in brackets, and whose brackets are closed at its end. -/
def Closed (s : List Char) : Prop := Hides isComma s

instance (s : List Char) : Decidable (Closed s) := inferInstanceAs (Decidable (Hides isComma s))

theorem splitList_append {depth : Nat} {a : List Char} (inside : hasOutside isComma depth a = false)
    (s : List Char) :
    splitList depth (a ++ s) = (splitList (bracketsThrough depth a) s).modifyHead (a ++ ·) := by
  induction a generalizing depth with
  | nil => exact (congrFun List.modifyHead_id _).symm
  | cons c a ih =>
    rw [hasOutside, Bool.or_eq_false_iff] at inside
    obtain ⟨here, later⟩ := inside
    have noComma : ¬ (depth = 0 ∧ c = ',') := by
      rintro ⟨rfl, rfl⟩
      cases here
    rw [List.cons_append, splitList, if_neg noComma, ih later, List.modifyHead_modifyHead]
    rfl

/-- A list of closed texts is split into them. -/
theorem splitList_intercalate {parts : List (List Char)} (closed : ∀ part ∈ parts, Closed part)
    (some : parts ≠ []) : splitList 0 ([','].intercalate parts) = parts := by
  induction parts with
  | nil => exact absurd rfl some
  | cons part parts ih =>
    obtain ⟨⟨inside, ends⟩, later⟩ := List.forall_mem_cons.1 closed
    cases parts with
    | nil =>
      have whole := splitList_append inside []
      rw [ends] at whole
      simpa [splitList] using whole
    | cons next parts =>
      rw [List.intercalate_cons_cons, List.append_assoc, splitList_append inside, ends,
        List.singleton_append, splitList, if_pos ⟨rfl, rfl⟩, ih later (List.cons_ne_nil _ _),
        List.modifyHead_cons, List.append_nil]

theorem isPlain_of_isBlank {c : Char} (blank : Text.isBlank c = true) : isPlain c = true := by
  have other : ∀ sign, Text.isBlank sign = false → c ≠ sign := fun _ => Text.ne_of_isBlank blank
  simp [isPlain, other '(' rfl, other ')' rfl, other '[' rfl, other ']' rfl]

theorem isComma_of_isBlank {c : Char} (blank : Text.isBlank c = true) : isComma c = false :=
  beq_false_of_ne (Text.ne_of_isBlank blank rfl)

theorem closed_of_allBlank {blanks : List Char} (blank : Text.allBlank blanks = true) :
    Closed blanks :=
  hides_of_plain fun c mem =>
    have here := List.all_eq_true.1 blank c mem
    ⟨isPlain_of_isBlank here, isComma_of_isBlank here⟩

/-! ## Lists -/

/-- A selector in a list, with the blanks around it. -/
structure Listed (α : Type) where
  leading : List Char
  selector : α
  trailing : List Char
  deriving DecidableEq, Repr

/-- A list of selectors, with a comma behind each but the last. -/
def listText {α : Type} (write : α → List Char) (list : List (Listed α)) : List Char :=
  [','].intercalate (list.map fun e => e.leading ++ (write e.selector ++ e.trailing))

/-- What a reader needs to find a selector in a list: it is closed, and the blanks around it are all
that there are. -/
structure Listed.Fits {α : Type} (write : α → List Char) (e : Listed α) : Prop where
  margins : Text.Margins e.leading (write e.selector) e.trailing
  closed : Closed (write e.selector)

/-- Each selector of a list is scoped, without the blanks around it. -/
theorem scopeList_listText {α : Type} {write : α → List Char} {list : List (Listed α)}
    (scope : List Char) (fits : ∀ e ∈ list, e.Fits write) (some : list ≠ []) :
    scopeList scope (listText write list) =
      ", ".toList.intercalate (list.map fun e => scopeComplex scope (write e.selector)) := by
  have closed : ∀ part ∈ list.map fun e => e.leading ++ (write e.selector ++ e.trailing),
      Closed part := by
    intro part mem
    obtain ⟨e, listed, rfl⟩ := List.mem_map.1 mem
    have here := fits e listed
    exact (closed_of_allBlank here.margins.leading_blank).append
      (here.closed.append (closed_of_allBlank here.margins.trailing_blank))
  rw [scopeList, listText, splitList_intercalate closed (mt List.map_eq_nil_iff.1 some),
    List.map_map]
  refine congrArg _ (List.map_congr_left fun e mem => ?_)
  exact congrArg (scopeComplex scope) (fits e mem).margins.trim

/-! ## The last compound -/

theorem isPlain_of_isCombinator {c : Char} (sign : isCombinator c = true) : isPlain c = true := by
  simp only [isCombinator, Bool.or_eq_true, beq_iff_eq] at sign
  rcases sign with ((((rfl | rfl) | rfl) | rfl) | rfl) | rfl <;> decide

theorem cutLastCompound_behind (depth : Nat) (a b : List Char) :
    cutLastCompound depth (a ++ b) =
      match cutLastCompound (bracketsThrough depth a) b with
      | some (before, compound) => some (a ++ before, compound)
      | none => (cutLastCompound depth a).map fun (before, compound) =>
          (before, compound ++ b) := by
  induction a generalizing depth with
  | nil =>
    have through : bracketsThrough depth [] = depth := rfl
    rw [List.nil_append, through]
    cases cutLastCompound depth b <;> rfl
  | cons c a ih =>
    have through : bracketsThrough depth (c :: a) =
        bracketsThrough (bracketsAfter depth c) a := rfl
    rw [List.cons_append, cutLastCompound, ih, through, cutLastCompound]
    cases cutLastCompound (bracketsThrough (bracketsAfter depth c) a) b with
    | some => rfl
    | none =>
      cases cutLastCompound (bracketsAfter depth c) a with
      | some => rfl
      | none =>
        by_cases sign : depth = 0 ∧ isCombinator c = true
        · simp only [Option.map_none, if_pos sign, Option.map_some]
        · simp only [Option.map_none, if_neg sign]

theorem cutLastCompound_eq_none_iff {depth : Nat} {s : List Char} :
    cutLastCompound depth s = none ↔ hasOutside isCombinator depth s = false := by
  induction s generalizing depth with
  | nil => simp [cutLastCompound, hasOutside]
  | cons c s ih =>
    rw [cutLastCompound, hasOutside, Bool.or_eq_false_iff, ← ih]
    cases cutLastCompound (bracketsAfter depth c) s with
    | some => simp
    | none => simp

/-- The compound behind a combinator is the last where no combinator is in it. -/
theorem cutLastCompound_combinator {before compound : List Char} {c : Char}
    (outside : bracketsThrough 0 before = 0) (sign : isCombinator c = true)
    (last : hasOutside isCombinator 0 compound = false) :
    cutLastCompound 0 (before ++ c :: compound) = some (before ++ [c], compound) := by
  have none := cutLastCompound_eq_none_iff.2 last
  rw [cutLastCompound_behind, outside, cutLastCompound,
    bracketsAfter_plain (isPlain_of_isCombinator sign), none]
  simp only [sign, and_self, if_true]

/-- The last compound is behind every combinator outside brackets. -/
theorem lastCompound_combinator {a : List Char} {c : Char} (level : bracketsThrough 0 a = 0)
    (sign : isCombinator c = true) (s : List Char) :
    lastCompound (a ++ c :: s) = (a ++ c :: (lastCompound s).1, (lastCompound s).2) := by
  have behind := cutLastCompound_behind 0 (a ++ [c]) s
  rw [bracketsThrough_append, level, List.append_assoc, List.singleton_append] at behind
  rw [lastCompound, lastCompound, behind, cutLastCompound_combinator level sign rfl]
  have through : bracketsThrough 0 [c] = 0 := bracketsAfter_plain (isPlain_of_isCombinator sign) 0
  rw [through]
  cases cutLastCompound 0 s with
  | none => rfl
  | some cut => exact Prod.ext (List.append_assoc ..) rfl

/-- What has no combinator outside brackets goes to the last compound of what is in front of it. -/
theorem lastCompound_append_of_last {a b : List Char} (level : bracketsThrough 0 a = 0)
    (last : hasOutside isCombinator 0 b = false) :
    lastCompound (a ++ b) = ((lastCompound a).1, (lastCompound a).2 ++ b) := by
  rw [lastCompound, lastCompound, cutLastCompound_behind, level,
    cutLastCompound_eq_none_iff.2 last]
  cases cutLastCompound 0 a <;> rfl

/-- There is a last combinator, with the last compound behind it, or there is none. -/
theorem cutLastCompound_cases (depth : Nat) (s : List Char) :
    hasOutside isCombinator depth s = false ∨
      ∃ before c compound, s = before ++ c :: compound ∧ bracketsThrough depth before = 0 ∧
        isCombinator c = true ∧ hasOutside isCombinator 0 compound = false := by
  induction s generalizing depth with
  | nil => exact .inl rfl
  | cons c s ih =>
    rcases ih (bracketsAfter depth c) with none | ⟨before, sign, compound, rfl, outside, combines⟩
    · by_cases here : depth = 0 ∧ isCombinator c = true
      · obtain ⟨rfl, combines⟩ := here
        rw [bracketsAfter_plain (isPlain_of_isCombinator combines)] at none
        exact .inr ⟨[], c, s, rfl, rfl, combines, none⟩
      · refine .inl ?_
        rw [hasOutside, none, Bool.or_false]
        simpa using here
    · exact .inr ⟨c :: before, sign, compound, rfl, outside, combines⟩

/-! ## The first colon -/

def isColon (c : Char) : Bool := c == ':'

theorem isColon_of_isBlank {c : Char} (blank : Text.isBlank c = true) : isColon c = false :=
  beq_false_of_ne (Text.ne_of_isBlank blank rfl)

theorem addClass_append {name : List Char} {depth : Nat} {a : List Char}
    (inside : hasOutside isColon depth a = false) (s : List Char) :
    addClass name depth (a ++ s) = a ++ addClass name (bracketsThrough depth a) s := by
  induction a generalizing depth with
  | nil => rfl
  | cons c a ih =>
    rw [hasOutside, Bool.or_eq_false_iff] at inside
    obtain ⟨here, later⟩ := inside
    have noColon : ¬ (depth = 0 ∧ c = ':') := by
      rintro ⟨rfl, rfl⟩
      cases here
    rw [List.cons_append, addClass, if_neg noColon, ih later]
    rfl

/-- Without a colon the class goes to the end. -/
theorem addClass_of_noColon {name : List Char} {depth : Nat} {s : List Char}
    (inside : hasOutside isColon depth s = false) : addClass name depth s = s ++ name := by
  have whole : addClass name depth (s ++ []) = _ := addClass_append inside []
  rwa [List.append_nil, addClass] at whole

theorem addClass_colon (name s : List Char) : addClass name 0 (':' :: s) = name ++ ':' :: s :=
  if_pos ⟨rfl, rfl⟩

/-- There is a first colon, or there is none. -/
theorem colon_cases (depth : Nat) (s : List Char) :
    hasOutside isColon depth s = false ∨
      ∃ before rest, s = before ++ ':' :: rest ∧ hasOutside isColon depth before = false ∧
        bracketsThrough depth before = 0 := by
  induction s generalizing depth with
  | nil => exact .inl rfl
  | cons c s ih =>
    by_cases here : depth = 0 ∧ c = ':'
    · obtain ⟨rfl, rfl⟩ := here
      exact .inr ⟨[], s, rfl, rfl, rfl⟩
    · have goes : ∀ t, hasOutside isColon depth (c :: t) =
          hasOutside isColon (bracketsAfter depth c) t := by
        intro t
        have passes : (depth == 0 && isColon c) = false := by simpa [isColon] using here
        rw [hasOutside, passes, Bool.false_or]
      rcases ih (bracketsAfter depth c) with none | ⟨before, rest, rfl, first, outside⟩
      · exact .inl ((goes s).trans none)
      · exact .inr ⟨c :: before, rest, rfl, (goes before).trans first, outside⟩

end StyleModule.Css
