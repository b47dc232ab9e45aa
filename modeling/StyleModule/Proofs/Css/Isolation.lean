import Mathlib.Data.List.Basic
import StyleModule.Component
import StyleModule.Css.Selector

/-!
# Classes of different components

A component's classes are glued together with dashes: a mark for all of them, the tag, the mode, and
an ending for the host element and for slotted content. The dashes of a tag or a mode look just like
those between the parts, so what a class tells is its words and no more, not where the tag ends and
the mode begins, nor whether the last word is an ending.

Two components have a class in common just where the words of the one are those of the other, or
those with one ending behind them (`classes_meet_iff`). Where tags have the same number of dashes,
and modes are single words other than the endings, the words tell the components apart.
-/

namespace StyleModule

/-- The classes that scoping writes for a component: its own, that of its host element, and that of
slotted content. -/
def componentClasses (tag : String) (mode : Option String) : List (List Char) :=
  let scope := (componentScope tag mode).toList
  [Css.ownClass scope, Css.hostClass scope, Css.slotClass scope]

/-- The words between the dashes of a component: those of its tag, then those of its mode, where
that is one of its own. -/
def componentWords (tag : String) (mode : Option String) : List (List Char) :=
  tag.toList.splitOn '-' ++ (specificMode mode).elim [] fun mode => mode.toList.splitOn '-'

/-- The words that the classes of a component may have behind the component's. -/
def classEndings : List (List (List Char)) := [[], ["h".toList], ["s".toList]]

/-! ## Words between dashes -/

theorem splitOn_dash_injective : Function.Injective (List.splitOn '-') :=
  Function.LeftInverse.injective fun _ => List.intercalate_splitOn '-'

theorem length_splitOn_dash (s : List Char) : (s.splitOn '-').length = s.count '-' + 1 := by
  induction s with
  | nil => rfl
  | cons c s ih =>
    rw [List.splitOn_cons_eq_if_modifyHead, List.count_cons]
    split
    next dash => rw [List.length_cons, ih]
    next other => rw [List.length_modifyHead, ih]

/-- The words of a component's class are a mark, those of the component, and an ending. -/
theorem map_splitOn_componentClasses (tag : String) (mode : Option String) :
    (componentClasses tag mode).map (List.splitOn '-') =
      classEndings.map fun ending => ".sc".toList :: (componentWords tag mode ++ ending) := by
  have scope : ('.' :: (componentScope tag mode).toList).splitOn '-' =
      ".sc".toList :: componentWords tag mode := by
    have front : ∀ s : List Char, ('.' :: 's' :: 'c' :: '-' :: s).splitOn '-' =
        ".sc".toList :: s.splitOn '-' := fun s =>
      List.splitOn_append_cons_self ".sc".toList s
    rw [componentScope, componentWords]
    cases specificMode mode with
    | none =>
      rw [String.toList_append, Option.elim_none, List.append_nil]
      exact front tag.toList
    | some mode =>
      rw [String.toList_append, String.toList_append, String.toList_append, Option.elim_some,
        ← List.splitOn_append_cons_self, ← front]
      simp only [List.append_assoc]
      rfl
  have ended : ∀ ending : Char,
      ('.' :: (componentScope tag mode).toList ++ ['-', ending]).splitOn '-' =
        ".sc".toList :: (componentWords tag mode ++ [ending].splitOn '-') := fun ending => by
    rw [List.splitOn_append_cons_self, scope]
    rfl
  have own : (Css.ownClass (componentScope tag mode).toList).splitOn '-' =
      ".sc".toList :: (componentWords tag mode ++ []) := by
    rw [List.append_nil]
    exact scope
  exact congrArg₂ _ own (congrArg₂ _ (ended 'h') (congrArg₂ _ (ended 's') rfl))

/-! ## Classes in common -/

variable {tag tag' : String} {mode mode' : Option String}

theorem mem_componentClasses_iff {c : List Char} :
    c ∈ componentClasses tag mode ↔ ∃ ending ∈ classEndings,
      c.splitOn '-' = ".sc".toList :: (componentWords tag mode ++ ending) := by
  rw [← List.mem_map_of_injective splitOn_dash_injective, map_splitOn_componentClasses,
    List.mem_map]
  simp only [eq_comm]

/-- Two components have a class in common where their words are the same, each with an ending. -/
theorem exists_class_iff :
    (∃ c ∈ componentClasses tag mode, c ∈ componentClasses tag' mode') ↔
      ∃ ending ∈ classEndings, ∃ ending' ∈ classEndings,
        componentWords tag mode ++ ending = componentWords tag' mode' ++ ending' := by
  constructor
  · rintro ⟨c, mem, mem'⟩
    obtain ⟨ending, known, words⟩ := mem_componentClasses_iff.1 mem
    obtain ⟨ending', known', words'⟩ := mem_componentClasses_iff.1 mem'
    exact ⟨ending, known, ending', known', (List.cons.inj (words.symm.trans words')).2⟩
  · rintro ⟨ending, known, ending', known', same⟩
    have written : ".sc".toList :: (componentWords tag mode ++ ending) ∈
        (componentClasses tag mode).map (List.splitOn '-') := by
      rw [map_splitOn_componentClasses]
      exact List.mem_map_of_mem known
    obtain ⟨c, mem, words⟩ := List.mem_map.1 written
    rw [same] at words
    exact ⟨c, mem, mem_componentClasses_iff.2 ⟨ending', known', words⟩⟩

/-- Of two endings one can be spared: either they are the same, or one of them is none. -/
theorem exists_endings_iff {w w' : List (List Char)} :
    (∃ ending ∈ classEndings, ∃ ending' ∈ classEndings, w ++ ending = w' ++ ending') ↔
      ∃ ending ∈ classEndings, w ++ ending = w' ∨ w = w' ++ ending := by
  have short : ∀ ending ∈ classEndings, ending = [] ∨ ending.length = 1 := by decide
  have none : [] ∈ classEndings := List.mem_cons_self
  constructor
  · rintro ⟨ending, known, ending', known', same⟩
    rcases short ending known with rfl | one
    · exact ⟨ending', known', .inr (by rwa [List.append_nil] at same)⟩
    rcases short ending' known' with rfl | one'
    · exact ⟨ending, known, .inl (by rwa [List.append_nil] at same)⟩
    · have words := List.append_inj_left' same (one.trans one'.symm)
      exact ⟨[], none, .inr (by rw [words, List.append_nil])⟩
  · rintro ⟨ending, known, same | same⟩
    · exact ⟨ending, known, [], none, by rw [same, List.append_nil]⟩
    · exact ⟨[], none, ending, known, by rw [same, List.append_nil]⟩

/-! ## Components that are told apart -/

/-- A mode whose name is one word, and not an ending; the default mode is one. -/
def SingleWord (mode : Option String) : Prop :=
  ∀ name ∈ specificMode mode, '-' ∉ name.toList ∧ [name.toList] ∉ classEndings

theorem SingleWord.componentWords_eq (single : SingleWord mode) (tag : String) :
    componentWords tag mode =
      tag.toList.splitOn '-' ++ (specificMode mode).toList.map String.toList := by
  rw [componentWords]
  cases named : specificMode mode with
  | none => rfl
  | some name => rw [Option.elim_some, List.splitOn_eq_singleton (single name named).1]; rfl

/-- Where tags have the same number of dashes and modes are single words, no ending can make up for
a difference. -/
theorem SingleWord.eq_of_words (single : SingleWord mode) (single' : SingleWord mode')
    (dashes : tag.toList.count '-' = tag'.toList.count '-') {ending : List (List Char)}
    (known : ending ∈ classEndings)
    (same : componentWords tag mode ++ ending = componentWords tag' mode') :
    (tag, specificMode mode) = (tag', specificMode mode') := by
  have length : (tag.toList.splitOn '-').length = (tag'.toList.splitOn '-').length := by
    rw [length_splitOn_dash, length_splitOn_dash, dashes]
  rw [single.componentWords_eq, single'.componentWords_eq, List.append_assoc] at same
  obtain ⟨tags, modes⟩ := List.append_inj same length
  have tags : tag = tag' := String.toList_inj.1 (splitOn_dash_injective tags)
  rw [Prod.mk.injEq]
  refine ⟨tags, ?_⟩
  cases named : specificMode mode with
  | none =>
    rw [named] at modes
    cases named' : specificMode mode' with
    | none => rfl
    | some name' =>
      -- then the mode's name would be the ending
      rw [named'] at modes
      have ends : ending = [name'.toList] := modes
      exact absurd (ends ▸ known) (single' name' named').2
  | some name =>
    rw [named] at modes
    cases named' : specificMode mode' with
    | none => rw [named'] at modes; cases modes
    | some name' =>
      rw [named'] at modes
      have names : name.toList :: ending = [name'.toList] := modes
      rw [String.toList_inj.1 (List.cons.inj names).1]

/-- Two components have a class in common just where the words of the one are those of the other, or
those with one ending behind them. So components that differ in their tags or their specific modes
have none in common where the tags have the same number of dashes and the modes are single words. -/
theorem classes_meet_iff (tag tag' : String) (mode mode' : Option String) :
    ((∃ c ∈ componentClasses tag mode, c ∈ componentClasses tag' mode') ↔
      ∃ ending ∈ classEndings,
        componentWords tag mode ++ ending = componentWords tag' mode' ∨
          componentWords tag mode = componentWords tag' mode' ++ ending) ∧
      (tag.toList.count '-' = tag'.toList.count '-' → SingleWord mode → SingleWord mode' →
        (tag, specificMode mode) ≠ (tag', specificMode mode') →
        ∀ c ∈ componentClasses tag mode, c ∉ componentClasses tag' mode') := by
  have meet : (∃ c ∈ componentClasses tag mode, c ∈ componentClasses tag' mode') ↔ _ :=
    exists_class_iff.trans exists_endings_iff
  refine ⟨meet, fun dashes single single' differ c mem mem' => differ ?_⟩
  obtain ⟨ending, known, same | same⟩ := meet.1 ⟨c, mem, mem'⟩
  · exact single.eq_of_words single' dashes known same
  · exact (single'.eq_of_words single dashes.symm known same.symm).symm

/-- Two modes of one tag share no class. -/
theorem classes_apart_modes :
    ∀ c ∈ componentClasses "my-cmp" (some "md"), c ∉ componentClasses "my-cmp" (some "ios") := by
  have single : SingleWord (some "md") := by
    rintro _ ⟨⟩
    decide
  have single' : SingleWord (some "ios") := by
    rintro _ ⟨⟩
    decide
  exact (classes_meet_iff "my-cmp" "my-cmp" (some "md") (some "ios")).2 rfl single single'
    (by decide)

/-- Two ways in which different components share a class: a mode behind a tag looks like a word of a
tag, and a mode looks like the ending of the host element's class. -/
theorem classes_meet_dashed :
    (("a", specificMode (some "b")) ≠ ("a-b", specificMode none) ∧
        ".sc-a-b".toList ∈ componentClasses "a" (some "b") ∧
        ".sc-a-b".toList ∈ componentClasses "a-b" none) ∧
      ("a", specificMode none) ≠ ("a", specificMode (some "h")) ∧
        ".sc-a-h".toList ∈ componentClasses "a" none ∧
        ".sc-a-h".toList ∈ componentClasses "a" (some "h") := by
  decide

end StyleModule
