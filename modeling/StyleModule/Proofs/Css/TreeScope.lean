import StyleModule.Proofs.Css.Marks
import StyleModule.Proofs.Css.Placement
import StyleModule.Proofs.Css.Tree

/-!
# Scoping of trees

Scoping works on text, and knows no tree. On a tree it should do two things only (`Selector.scoped`
and `hostClassed`): a host element is written as the class of the host, behind its argument where it
has one, and the last compound gets the class of the scope behind its other classes, unless it is a
host element. `scopeList_trees` says that it does these on every list of trees, whatever stands in
brackets, where the marks and the class of the host are spoken of nowhere else.
-/

namespace StyleModule.Css

/-! ## What is done to a tree -/

/-- A host element as the class that replaces its mark. -/
def hostClassed (scope : Word) : Option Argument → List Char
  | none => hostClass scope.chars
  | some argument => Text.trim argument.chars ++ hostClass scope.chars

/-- A compound with one more class, in front of its pseudo parts. -/
def Compound.withClass (name : Word) (compound : Compound) : Compound where
  head := compound.head
  simples := compound.simples ++ [.ofClass name]
  pseudos := compound.pseudos
  nonempty := .inr (.inl (List.append_ne_nil_of_right_ne_nil _ (List.cons_ne_nil _ _)))

/-- A selector whose last compound has the class of the scope, if it is no host element. -/
def Selector.scoped (scope : Word) : Selector → Selector
  | .last compound => .last (if compound.head.isHost then compound else compound.withClass scope)
  | .joined compound joint rest => .joined compound joint (rest.scoped scope)

/-- Is the last compound a host element? -/
def Selector.endsInHost : Selector → Bool
  | .last compound => compound.head.isHost
  | .joined _ _ rest => rest.endsInHost

/-- The argument of a host element, if there is one. -/
def Head.argument : Head → List Char
  | .host (some argument) => argument.chars
  | _ => []

/-- A compound that speaks of no mark but with its head. -/
def Compound.Unmarked (compound : Compound) : Prop :=
  Markless compound.head.argument ∧ Markless compound.tail

instance (s : List Char) : Decidable (Markless s) := inferInstanceAs (Decidable (_ ∧ _))

instance (compound : Compound) : Decidable compound.Unmarked :=
  inferInstanceAs (Decidable (_ ∧ _))

def Selector.compounds : Selector → List Compound
  | .last compound => [compound]
  | .joined compound _ rest => compound :: rest.compounds

/-! ## Marks -/

/-- The head of a compound as a segment. -/
def Head.segment : Head → Segment
  | .bare => .plain []
  | .any => .plain ['*']
  | .type name => .plain name.chars
  | .host none => .host
  | .host (some argument) => .hostOf argument.chars

/-- The segments of a selector: each head, and what is between it and the next. -/
def Selector.segments : Selector → List Segment
  | .last compound => [compound.head.segment, .plain compound.tail]
  | .joined compound joint rest =>
    compound.head.segment :: .plain (compound.tail ++ joint.text) :: rest.segments

theorem Head.segment_text (head : Head) : head.segment.text = head.text hostWritten := by
  cases head with
  | host argument => cases argument <;> simp [segment, Segment.text, Head.text, hostWritten, applied]
  | bare | any | type => rfl

theorem Head.segment_hosted (scope : Word) (head : Head) :
    head.segment.hosted (hostClass scope.chars) = head.text (hostClassed scope) := by
  cases head with
  | host argument => cases argument <;> rfl
  | bare | any | type => rfl

theorem spelled_segments (selector : Selector) : spelled selector.segments = selector.written := by
  induction selector with
  | last compound =>
    rw [Selector.segments, spelled_cons, spelled_cons, Head.segment_text]
    exact congrArg _ (List.append_nil _)
  | joined compound joint rest ih =>
    rw [Selector.segments, spelled_cons, spelled_cons, ih, Head.segment_text]
    simp only [Segment.text, Selector.written, Selector.text, Compound.text, List.append_assoc]

theorem hosted_segments (scope : Word) (selector : Selector) :
    selector.segments.flatMap (Segment.hosted (hostClass scope.chars)) =
      selector.text (hostClassed scope) := by
  induction selector with
  | last compound =>
    rw [Selector.segments, List.flatMap_cons, List.flatMap_cons, Head.segment_hosted]
    exact congrArg _ (List.append_nil _)
  | joined compound joint rest ih =>
    rw [Selector.segments, List.flatMap_cons, List.flatMap_cons, ih, Head.segment_hosted]
    simp only [Segment.hosted, Segment.text, Selector.text, Compound.text, List.append_assoc]

theorem not_slotted_segments (selector : Selector) :
    selector.segments.any Segment.isSlotted = false := by
  have head : ∀ head : Head, head.segment.isSlotted = false := by
    intro head
    cases head with
    | host argument => cases argument <;> rfl
    | bare | any | type => rfl
  induction selector with
  | last compound => rw [Selector.segments, List.any_cons, head]; rfl
  | joined compound joint rest ih =>
    rw [Selector.segments, List.any_cons, List.any_cons, head, ih]
    rfl

theorem Markless.silent {s : List Char} (markless : Markless s) (m : Mark) : m.Silent s [] := by
  refine Mark.silent_of_not_infix ?_
  rw [← Text.contains_iff_infix, Bool.not_eq_true]
  cases m with
  | host => exact markless.1
  | slotted => exact markless.2

/-- A head is read as what it is in front of what goes on with no name or argument. -/
theorem legible_head {head : Head} {rest : List Segment} (legible : Legible rest)
    (behind : ∀ c ∈ (spelled rest).head?, c ≠ '(' ∧ c ≠ '-')
    (unmarked : Markless head.argument) : Legible (head.segment :: rest) := by
  cases head with
  | bare => exact ⟨fun _ => trivial, legible⟩
  | any => exact ⟨fun _ => Mark.silent_of_colonless (by decide) _, legible⟩
  | type name =>
    have colonless : ':' ∉ name.chars := fun mem =>
      absurd (name.named ':' mem) (by decide)
    exact ⟨fun _ => Mark.silent_of_colonless colonless _, legible⟩
  | host argument =>
    cases argument with
    | none => exact ⟨behind, legible⟩
    | some argument => exact ⟨argument.round, unmarked.silent .slotted, legible⟩

/-- Nothing of a mark is what a joint begins with, and no joint has a colon. -/
theorem Joint.silent (joint : Joint) (m : Mark) (s : List Char) :
    m.Silent joint.text s ∧ ∀ c ∈ (joint.text ++ s).head?, c ∉ m.text.tail ∧ c ≠ '(' ∧ c ≠ '-' := by
  constructor
  · refine Mark.silent_of_colonless (fun mem => ?_) s
    rcases List.mem_append.1 mem with leading | mem
    · exact Text.not_mem_of_allBlank joint.leading_blank rfl leading
    · rcases List.mem_cons.1 mem with sign | trailing
      · exact absurd joint.combines (sign ▸ by decide)
      · exact Text.not_mem_of_allBlank joint.trailing_blank rfl trailing
  · intro c mem
    have other : ('-' :: '(' :: m.text.tail).all
        (fun d => !Text.isBlank d && !isCombinator d) = true := by
      cases m <;> decide
    have apart : c ∉ '-' :: '(' :: m.text.tail := by
      intro found
      have neither := List.all_eq_true.1 other c found
      rw [Bool.and_eq_true, Bool.not_eq_true', Bool.not_eq_true'] at neither
      rcases joint.head?_text s c mem with blank | sign
      · exact absurd blank (Bool.eq_false_iff.1 neither.1)
      · exact absurd sign (Bool.eq_false_iff.1 neither.2)
    simp only [List.mem_cons, not_or] at apart
    exact ⟨apart.2.2, apart.2.1, apart.1⟩

/-- Marks are found in a tree where they are used. -/
theorem legible_segments {selector : Selector}
    (unmarked : ∀ compound ∈ selector.compounds, compound.Unmarked) :
    Legible selector.segments := by
  have sign : ∀ c ∈ ".#[:".toList, c ≠ '(' ∧ c ≠ '-' := by simp
  induction selector with
  | last compound =>
    obtain ⟨argument, tail⟩ := unmarked compound List.mem_cons_self
    refine legible_head ⟨tail.silent, trivial⟩ (fun c mem => ?_) argument
    rw [spelled_cons, Segment.text, spelled, List.flatMap_nil, List.append_nil] at mem
    exact sign c (compound.head?_tail c mem)
  | joined compound joint rest ih =>
    obtain ⟨⟨argument, tail⟩, later⟩ := List.forall_mem_cons.1 unmarked
    refine legible_head ⟨fun m => ?_, ih later⟩ (fun c mem => ?_) argument
    · obtain ⟨silent, other⟩ := joint.silent m (spelled rest.segments)
      have apart := Mark.apart_of_head (t := compound.tail) fun c mem => (other c mem).1
      exact Mark.silent_append.2 ⟨(tail.silent m).of_apart apart, silent⟩
    · rw [spelled_cons, Segment.text, List.append_assoc, List.head?_append, Option.mem_def,
        Option.or_eq_some_iff] at mem
      rcases mem with first | ⟨-, behind⟩
      · exact sign c (compound.head?_tail c first)
      · exact ((joint.silent .host _).2 c behind).2

/-! ## The last compound -/

/-- As many brackets are open behind a host element as in front of it. -/
def Level (host : Option Argument → List Char) : Prop :=
  ∀ argument, bracketsThrough 0 (host argument) = 0

theorem level_hostWritten : Level hostWritten := fun argument => (closed_hostWritten argument).2

theorem hides_hostClass (scope : Word) : Hides isCombinator (hostClass scope.chars) := by
  have dot : Hides isCombinator ['.'] := by decide
  have ending : Hides isCombinator "-h".toList := by decide
  exact (dot.append (hides_word separates_combinator scope)).append ending

theorem bracketsThrough_trim (s : List Char) (depth : Nat) :
    bracketsThrough depth (Text.trim s) = bracketsThrough depth s := by
  have plain : ∀ {blanks}, Text.allBlank blanks = true → ∀ c ∈ blanks, isPlain c = true :=
    fun blank c mem => isPlain_of_isBlank (List.all_eq_true.1 blank c mem)
  rw [← congrArg (bracketsThrough depth) (Text.head_core_tail s), bracketsThrough_append,
    bracketsThrough_append, bracketsThrough_plain (plain (Text.blankHead_blank s)),
    bracketsThrough_plain (plain (Text.blankTail_blank s))]

/-- The class of the host is behind what is closed. -/
theorem exists_front (scope : Word) (argument : Option Argument) : ∃ front,
    hostClassed scope argument = front ++ hostClass scope.chars ∧ bracketsThrough 0 front = 0 := by
  cases argument with
  | none => exact ⟨[], rfl, rfl⟩
  | some argument =>
    refine ⟨Text.trim argument.chars, rfl, ?_⟩
    rw [bracketsThrough_trim]
    exact (bracketsThrough_of_closesAll isComma 0 argument.round argument.square).1

theorem level_hostClassed (scope : Word) : Level (hostClassed scope) := by
  intro argument
  obtain ⟨front, split, level⟩ := exists_front scope argument
  rw [split, bracketsThrough_append, level]
  exact (hides_hostClass scope).2

section LastCompound

variable {host : Option Argument → List Char}

theorem text_joined (compound : Compound) (joint : Joint) (rest : Selector) :
    (Selector.joined compound joint rest).text host =
      (compound.text host ++ joint.leading) ++
        joint.sign :: (joint.trailing ++ rest.text host) := by
  simp only [Selector.text, Joint.text, List.append_assoc, List.cons_append]

/-- The place of a class is in front of the pseudo parts. -/
theorem Compound.classPlace {compound : Compound} (other : compound.head.isHost = false) :
    ClassPlace (compound.head.text host ++ compound.simpleText) compound.pseudoText := by
  have front : ∀ {sign}, Separates sign →
      Hides sign (compound.head.text host ++ compound.simpleText) := fun separates =>
    (hides_head separates other).append (hides_flatMap fun simple _ => hides_simple separates simple)
  have colonless := front separates_colon
  have last := front separates_combinator
  have pseudo : Hides isCombinator compound.pseudoText :=
    hides_flatMap fun pseudo _ => hides_pseudo separates_combinator rfl pseudo
  rcases compound.pseudoText_cases with none | ⟨rest, split⟩
  · rw [none]
    exact (ClassPlace.ending .nil last.1 colonless.1 : ClassPlace ([] ++ _) [])
  · rw [split] at pseudo ⊢
    exact (ClassPlace.colon .nil (last.append pseudo).1 colonless.1 colonless.2 :
      ClassPlace ([] ++ _) (':' :: rest))

variable (level : Level host)

include level

theorem Compound.level_text (compound : Compound) : bracketsThrough 0 (compound.text host) = 0 := by
  have head : bracketsThrough 0 (compound.head.text host) = 0 := by
    cases kind : compound.head with
    | host argument => exact level argument
    | bare | any | type => exact (hides_head separates_comma rfl).2
  rw [Compound.text, bracketsThrough_append, head]
  exact (hides_tail separates_comma rfl compound).2

/-- A selector is cut at its joints. -/
theorem level_joined (compound : Compound) (joint : Joint) :
    bracketsThrough 0 (compound.text host ++ joint.leading) = 0 := by
  rw [bracketsThrough_append, compound.level_text level]
  exact (closed_of_allBlank joint.leading_blank).2

/-- Up to a joint nothing of a selector is in its last compound. -/
theorem lastCompound_joined {blanks : List Char} (blank : Text.allBlank blanks = true)
    (compound : Compound) (joint : Joint) (rest : Selector) :
    (lastCompound (blanks ++ (Selector.joined compound joint rest).text host)).2 =
      (lastCompound (joint.trailing ++ rest.text host)).2 := by
  have outside : bracketsThrough 0 (blanks ++ (compound.text host ++ joint.leading)) = 0 := by
    rw [bracketsThrough_append, (closed_of_allBlank blank).2]
    exact level_joined level compound joint
  rw [text_joined, ← List.append_assoc, lastCompound_combinator outside joint.combines]

/-- The class of the scope is put where it is put in the tree. -/
theorem insertClass_text (scope : Word) {selector : Selector}
    (other : selector.endsInHost = false) :
    insertClass (ownClass scope.chars) (selector.text host) = (selector.scoped scope).text host := by
  induction selector with
  | last compound =>
    rw [Selector.endsInHost] at other
    have whole : (Selector.last compound).text host =
        (compound.head.text host ++ compound.simpleText) ++ compound.pseudoText :=
      (List.append_assoc ..).symm
    rw [whole, (Compound.classPlace other).insertClass, Selector.scoped, other]
    simp [Selector.text, Compound.text, Compound.withClass, Compound.tail, Compound.simpleText,
      Compound.pseudoText, Simple.text, ownClass]
  | joined compound joint rest ih =>
    have plain : ∀ c ∈ joint.trailing, isPlain c = true ∧ isColon c = false := by
      intro c mem
      have blank := List.all_eq_true.1 joint.trailing_blank c mem
      exact ⟨isPlain_of_isBlank blank, isColon_of_isBlank blank⟩
    rw [text_joined, insertClass_combinator (level_joined level compound joint) joint.combines,
      insertClass_append plain, ih other, Selector.scoped, text_joined]

end LastCompound

/-- Without the end of the selector, it does not matter how a host element is written. -/
theorem lastCompound_eq {host host' : Option Argument → List Char} (level : Level host)
    (level' : Level host') {selector : Selector} (other : selector.endsInHost = false)
    (blanks : List Char) (blank : Text.allBlank blanks = true) :
    (lastCompound (blanks ++ selector.text host)).2 =
      (lastCompound (blanks ++ selector.text host')).2 := by
  induction selector generalizing blanks with
  | last compound =>
    have same : compound.text host = compound.text host' := by
      rw [Selector.endsInHost] at other
      rw [Compound.text, Compound.text]
      cases kind : compound.head with
      | host => rw [kind] at other; cases other
      | bare | any | type => rfl
    rw [Selector.text, Selector.text, same]
  | joined compound joint rest ih =>
    rw [lastCompound_joined level blank, lastCompound_joined level' blank]
    exact ih other joint.trailing joint.trailing_blank

/-- Where the last compound is a host element, the class of the host is in it. -/
theorem infix_hostClass (scope : Word) {selector : Selector} (host : selector.endsInHost = true)
    (blanks : List Char) (blank : Text.allBlank blanks = true) :
    hostClass scope.chars <:+:
      (lastCompound (blanks ++ selector.text (hostClassed scope))).2 := by
  induction selector generalizing blanks with
  | last compound =>
    obtain ⟨argument, kind⟩ : ∃ argument, compound.head = .host argument := by
      rw [Selector.endsInHost] at host
      cases kind : compound.head with
      | host argument => exact ⟨argument, rfl⟩
      | bare | any | type => rw [kind] at host; cases host
    obtain ⟨front, split, level⟩ := exists_front scope argument
    have last : hasOutside isCombinator 0 (hostClass scope.chars ++ compound.tail) = false :=
      ((hides_hostClass scope).append (hides_tail separates_combinator rfl compound)).1
    have whole : blanks ++ (Selector.last compound).text (hostClassed scope) =
        (blanks ++ front) ++ (hostClass scope.chars ++ compound.tail) := by
      simp only [Selector.text, Compound.text, kind, Head.text, split, List.append_assoc]
    have outside : bracketsThrough 0 (blanks ++ front) = 0 := by
      rw [bracketsThrough_append, (closed_of_allBlank blank).2, level]
    rw [whole, lastCompound_append_of_last outside last]
    exact ⟨_, compound.tail, by rw [List.append_assoc]⟩
  | joined compound joint rest ih =>
    rw [lastCompound_joined (level_hostClassed scope) blank]
    exact ih host joint.trailing joint.trailing_blank

theorem infix_hostMark {selector : Selector} (host : selector.endsInHost = true) :
    hostMark <:+: selector.written := by
  induction selector with
  | last compound =>
    rw [Selector.endsInHost] at host
    rw [Selector.written, Selector.text, Compound.text]
    cases kind : compound.head with
    | host argument =>
      exact ((List.prefix_append hostMark (applied argument)).trans (List.prefix_append _ _)).isInfix
    | bare | any | type => rw [kind] at host; cases host
  | joined compound joint rest ih =>
    exact (ih host).trans ((List.suffix_append_of_suffix (List.suffix_append _ _)).isInfix)

theorem scoped_of_endsInHost (scope : Word) {selector : Selector}
    (host : selector.endsInHost = true) : selector.scoped scope = selector := by
  induction selector with
  | last compound => exact congrArg Selector.last (if_pos host)
  | joined compound joint rest ih => rw [Selector.scoped, ih host]

/-! ## Scoping -/

/-- A tree is scoped as a tree. -/
theorem scopeComplex_tree (scope : Word) {selector : Selector}
    (unmarked : ∀ compound ∈ selector.compounds, compound.Unmarked)
    (unclassed : ¬ hostClass scope.chars <:+: selector.written) :
    scopeComplex scope.chars selector.written =
      (selector.scoped scope).text (hostClassed scope) := by
  have legible := legible_segments unmarked
  have spoken := contains_slottedMark legible
  have replaced : replaceHost (hostClass scope.chars) _ = _ :=
    replaceHost_spelled legible (not_slotted_segments selector)
  rw [spelled_segments, not_slotted_segments] at spoken
  rw [spelled_segments, hosted_segments] at replaced
  rw [scopeComplex, spoken, if_neg Bool.false_ne_true, scopeUnslotted_eq, replaced]
  cases ends : selector.endsInHost with
  | true =>
    have marked := Text.contains_iff_infix.2 (infix_hostMark ends)
    have classed := Text.contains_iff_infix.2 (infix_hostClass scope ends [] rfl)
    rw [List.nil_append] at classed
    rw [marked, classed, Bool.and_self, if_pos rfl, scoped_of_endsInHost scope ends]
  | false =>
    have same := lastCompound_eq (level_hostClassed scope) level_hostWritten ends [] rfl
    have bare : Text.contains (hostClass scope.chars)
        (lastCompound (selector.text (hostClassed scope))).2 = false := by
      rw [← Bool.not_eq_true, Text.contains_iff_infix]
      intro mentioned
      rw [List.nil_append, List.nil_append] at same
      rw [same] at mentioned
      exact unclassed (mentioned.trans ⟨_, [], by rw [List.append_nil, lastCompound_append]; rfl⟩)
    rw [bare, Bool.and_false, if_neg Bool.false_ne_true]
    exact insertClass_text (level_hostClassed scope) scope ends

/-- A list of trees is scoped tree by tree. -/
theorem scopeList_trees (scope : Word) {list : List (Listed Selector)} (some : list ≠ [])
    (fits : ∀ e ∈ list, Text.allBlank e.leading = true ∧ Text.allBlank e.trailing = true ∧
      (∀ compound ∈ e.selector.compounds, compound.Unmarked) ∧
        ¬ hostClass scope.chars <:+: e.selector.written) :
    scopeList scope.chars (listText Selector.written list) =
      ", ".toList.intercalate
        (list.map fun e => (e.selector.scoped scope).text (hostClassed scope)) := by
  have found : ∀ e ∈ list, e.Fits Selector.written := by
    intro e mem
    obtain ⟨leading, trailing, -⟩ := fits e mem
    obtain ⟨⟨head, last⟩, nonempty⟩ := e.selector.trimmed
    exact ⟨⟨leading, trailing, head, last, fun empty => absurd empty nonempty⟩,
      e.selector.closed_written⟩
  rw [scopeList_listText scope.chars found some]
  refine congrArg _ (List.map_congr_left fun e mem => ?_)
  obtain ⟨-, -, unmarked, unclassed⟩ := fits e mem
  exact scopeComplex_tree scope unmarked unclassed

/-- A host element with an argument in front of the last compound, and a host element as the last
compound. -/
theorem scopeList_trees_host :
    scopeList ['c'] ":host(.a > .b) + li[d]:not(.x, .y) , b~ :host::before".toList =
      ".a > .b.c-h + li[d].c:not(.x, .y), b~ .c-h::before".toList := by
  let scope : Word := ⟨['c'], by decide, List.forall_mem_singleton.2 rfl⟩
  let host : Compound :=
    ⟨.host (some ⟨".a > .b".toList, by decide, by decide⟩), [], [], .inl nofun⟩
  let item : Compound :=
    ⟨.type ⟨"li".toList, by decide, List.all_eq_true.1 (by decide)⟩,
      [.ofAttribute ⟨['d'], by decide, by decide⟩],
      [⟨false, ⟨"not".toList, by decide, List.all_eq_true.1 (by decide)⟩,
        some ⟨".x, .y".toList, by decide, by decide⟩⟩], .inl nofun⟩
  let bold : Compound :=
    ⟨.type ⟨['b'], by decide, List.forall_mem_singleton.2 rfl⟩, [], [], .inl nofun⟩
  let before : Compound :=
    ⟨.host none, [],
      [⟨true, ⟨"before".toList, by decide, List.all_eq_true.1 (by decide)⟩, none⟩], .inl nofun⟩
  let list : List (Listed Selector) :=
    [⟨[], .joined host ⟨[' '], '+', [' '], rfl, rfl, rfl⟩ (.last item), [' ']⟩,
      ⟨[' '], .joined bold ⟨[], '~', [' '], rfl, rfl, rfl⟩ (.last before), []⟩]
  have text : listText Selector.written list =
      ":host(.a > .b) + li[d]:not(.x, .y) , b~ :host::before".toList := by decide +kernel
  have trees : ", ".toList.intercalate
      (list.map fun e => (e.selector.scoped scope).text (hostClassed scope)) =
        ".a > .b.c-h + li[d].c:not(.x, .y), b~ .c-h::before".toList := by decide +kernel
  have fits : ∀ e ∈ list, Text.allBlank e.leading = true ∧ Text.allBlank e.trailing = true ∧
      (∀ compound ∈ e.selector.compounds, compound.Unmarked) ∧
        ¬ hostClass scope.chars <:+: e.selector.written := by
    decide +kernel
  exact (congrArg _ text.symm).trans ((scopeList_trees scope (List.cons_ne_nil _ _) fits).trans trees)

end StyleModule.Css
