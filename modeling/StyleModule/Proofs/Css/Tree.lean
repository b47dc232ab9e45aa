import StyleModule.Proofs.Css.Outside

/-!
# Selectors as trees

A selector is compounds with combinators between them. A compound has a type or a host element, or
neither, then classes, ids and attributes, then pseudo parts. Names, arguments and joints carry what
makes them such, so every tree is one that can be written.

How a host element is written is left open (`Selector.text`): as the mark that it is, or as what
replaces the mark. In either case a reader finds the parts of a tree where they are: all that
separates is in brackets (`Selector.closed_written`), and no blanks are at the ends
(`Selector.trimmed`).
-/

namespace StyleModule.Css

/-! ## Syntax -/

/-- A character of a name: a letter, a digit, `-`, `_`, or what is not ASCII; and no blank. -/
def isNameChar (c : Char) : Bool :=
  !Text.isBlank c && (c.isAlphanum || c == '-' || c == '_' || 128 ≤ c.toNat)

/-- The name of a type, a class, an id, a pseudo part or a scope. -/
structure Word where
  chars : List Char
  nonempty : chars ≠ []
  named : ∀ c ∈ chars, isNameChar c = true
  deriving DecidableEq

/-- What may stand in brackets: text in which those of either kind are closed. -/
structure Argument where
  chars : List Char
  round : closesAll '(' ')' 0 chars = true
  square : closesAll '[' ']' 0 chars = true
  deriving DecidableEq

/-- What a compound begins with. -/
inductive Head where
  | bare
  | any
  | type (name : Word)
  | host (argument : Option Argument)
  deriving DecidableEq

/-- A class, an id or an attribute. -/
inductive Simple where
  | ofClass (name : Word)
  | ofId (name : Word)
  | ofAttribute (test : Argument)
  deriving DecidableEq

/-- A pseudo-class, or a pseudo-element. -/
structure Pseudo where
  element : Bool
  name : Word
  argument : Option Argument
  deriving DecidableEq

/-- A compound; it is not empty. -/
structure Compound where
  head : Head
  simples : List Simple
  pseudos : List Pseudo
  nonempty : head ≠ .bare ∨ simples ≠ [] ∨ pseudos ≠ []
  deriving DecidableEq

/-- A combinator with blanks around it. -/
structure Joint where
  leading : List Char
  sign : Char
  trailing : List Char
  leading_blank : Text.allBlank leading = true
  combines : isCombinator sign = true
  trailing_blank : Text.allBlank trailing = true
  deriving DecidableEq

/-- Compounds with a joint between each two. -/
inductive Selector where
  | last (compound : Compound)
  | joined (compound : Compound) (joint : Joint) (rest : Selector)
  deriving DecidableEq

/-! ## Text -/

/-- An argument in its brackets. -/
def applied : Option Argument → List Char
  | none => []
  | some argument => '(' :: (argument.chars ++ [')'])

def Simple.text : Simple → List Char
  | .ofClass name => '.' :: name.chars
  | .ofId name => '#' :: name.chars
  | .ofAttribute test => '[' :: (test.chars ++ [']'])

def Pseudo.text (pseudo : Pseudo) : List Char :=
  (if pseudo.element then "::".toList else ":".toList) ++
    (pseudo.name.chars ++ applied pseudo.argument)

section Text

variable (host : Option Argument → List Char)

def Head.text : Head → List Char
  | .bare => []
  | .any => ['*']
  | .type name => name.chars
  | .host argument => host argument

def Compound.simpleText (compound : Compound) : List Char := compound.simples.flatMap Simple.text

def Compound.pseudoText (compound : Compound) : List Char := compound.pseudos.flatMap Pseudo.text

/-- A compound behind its head. -/
def Compound.tail (compound : Compound) : List Char := compound.simpleText ++ compound.pseudoText

def Compound.text (compound : Compound) : List Char :=
  compound.head.text host ++ compound.tail

def Joint.text (joint : Joint) : List Char := joint.leading ++ joint.sign :: joint.trailing

/-- The text of a selector in which a host element is written so. -/
def Selector.text : Selector → List Char
  | .last compound => compound.text host
  | .joined compound joint rest => compound.text host ++ (joint.text ++ rest.text)

end Text

/-- A host element as its mark. -/
def hostWritten (argument : Option Argument) : List Char := hostMark ++ applied argument

/-- A selector as it is written. -/
def Selector.written : Selector → List Char := Selector.text hostWritten

/-- Is the head a host element? -/
def Head.isHost : Head → Bool
  | .host _ => true
  | _ => false

/-! ## Names -/

theorem ne_of_isNameChar {c sign : Char} (named : isNameChar c = true)
    (other : isNameChar sign = false) : c ≠ sign := by
  rintro rfl
  rw [named] at other
  cases other

theorem isBlank_of_isNameChar {c : Char} (named : isNameChar c = true) :
    Text.isBlank c = false := by
  rw [isNameChar, Bool.and_eq_true, Bool.not_eq_true'] at named
  exact named.1

theorem isPlain_of_isNameChar {c : Char} (named : isNameChar c = true) : isPlain c = true := by
  have other : ∀ sign, isNameChar sign = false → c ≠ sign := fun _ => ne_of_isNameChar named
  simp [isPlain, other '(' (by decide), other ')' (by decide), other '[' (by decide),
    other ']' (by decide)]

/-- A sign that stands in no name, and begins no part but a pseudo part. -/
structure Separates (sign : Char → Bool) : Prop where
  unnamed : ∀ c, isNameChar c = true → sign c = false
  begins : ∀ c ∈ ".#[(*".toList, sign c = false

theorem separates_comma : Separates isComma where
  unnamed c named := beq_false_of_ne (ne_of_isNameChar named (by decide))
  begins := by simp [isComma]

theorem separates_colon : Separates isColon where
  unnamed c named := beq_false_of_ne (ne_of_isNameChar named (by decide))
  begins := by simp [isColon]

theorem separates_combinator : Separates isCombinator where
  unnamed c named := by
    rw [Bool.eq_false_iff]
    intro sign
    simp only [isCombinator, Bool.or_eq_true, beq_iff_eq] at sign
    rcases sign with ((((rfl | rfl) | rfl) | rfl) | rfl) | rfl <;> exact absurd named (by decide)
  begins := by simp [isCombinator]

/-! ## What is in brackets -/

section Hides

variable {sign : Char → Bool} (separates : Separates sign)

include separates

theorem hides_word (name : Word) : Hides sign name.chars :=
  hides_of_plain fun c mem =>
    ⟨isPlain_of_isNameChar (name.named c mem), separates.unnamed c (name.named c mem)⟩

theorem hides_argument {opening closing : Char} (argument : Argument)
    (kind : (opening, closing) ∈ [('(', ')'), ('[', ']')]) :
    Hides sign (opening :: (argument.chars ++ [closing])) := by
  obtain ⟨begins, opens, closes⟩ : sign opening = false ∧ bracketsAfter 0 opening = 1 ∧
      bracketsAfter 1 closing = 0 := by
    simp only [List.mem_cons, Prod.mk.injEq, List.not_mem_nil, or_false] at kind
    rcases kind with ⟨rfl, rfl⟩ | ⟨rfl, rfl⟩
    · exact ⟨separates.begins '(' (by decide), rfl, rfl⟩
    · exact ⟨separates.begins '[' (by decide), rfl, rfl⟩
  obtain ⟨level, inside⟩ := bracketsThrough_of_closesAll sign 1 argument.round argument.square
  constructor
  · rw [hasOutside, begins, opens, hasOutside_append, inside Nat.one_ne_zero, level]
    rfl
  · rw [bracketsThrough, List.foldl_cons, opens, ← bracketsThrough, bracketsThrough_append, level]
    exact closes

theorem hides_applied (argument : Option Argument) : Hides sign (applied argument) := by
  cases argument with
  | none => exact hides_nil
  | some argument => exact hides_argument separates argument (by decide)

theorem hides_simple (simple : Simple) : Hides sign simple.text := by
  have begin : ∀ c ∈ ".#".toList, Hides sign [c] := by
    refine fun c mem => hides_of_plain fun d single => ?_
    cases List.mem_singleton.1 single
    exact ⟨(by simp [isPlain] : ∀ c ∈ ".#".toList, isPlain c = true) c mem,
      separates.begins c ((by decide : ".#".toList ⊆ ".#[(*".toList) mem)⟩
  cases simple with
  | ofClass name => exact (begin '.' (by decide)).append (hides_word separates name)
  | ofId name => exact (begin '#' (by decide)).append (hides_word separates name)
  | ofAttribute test => exact hides_argument separates test (by decide)

theorem hides_pseudo (colon : sign ':' = false) (pseudo : Pseudo) : Hides sign pseudo.text := by
  have colons : ∀ text, (∀ c ∈ text, c = ':') → Hides sign text := by
    refine fun text all => hides_of_plain fun c mem => ?_
    rw [all c mem]
    exact ⟨rfl, colon⟩
  refine Hides.append ?_ ((hides_word separates _).append (hides_applied separates _))
  cases pseudo.element with
  | true => exact colons "::".toList (by simp)
  | false => exact colons ":".toList (by simp)

theorem hides_tail (colon : sign ':' = false) (compound : Compound) : Hides sign compound.tail :=
  (hides_flatMap fun simple _ => hides_simple separates simple).append
    (hides_flatMap fun pseudo _ => hides_pseudo separates colon pseudo)

theorem hides_head {host : Option Argument → List Char} {head : Head}
    (other : head.isHost = false) : Hides sign (head.text host) := by
  cases head with
  | bare => exact hides_nil
  | any =>
    refine hides_of_plain fun c single => ?_
    cases List.mem_singleton.1 single
    exact ⟨rfl, separates.begins '*' (by decide)⟩
  | type name => exact hides_word separates name
  | host argument => cases other

end Hides

theorem closed_hostWritten (argument : Option Argument) : Closed (hostWritten argument) := by
  have mark : Closed hostMark := by decide
  exact mark.append (hides_applied separates_comma argument)

theorem isComma_of_isCombinator {c : Char} (sign : isCombinator c = true) : isComma c = false := by
  rw [isComma, beq_eq_false_iff_ne]
  rintro rfl
  cases sign

theorem Joint.closed (joint : Joint) : Closed joint.text := by
  have sign : Closed [joint.sign] := by
    refine hides_of_plain fun c single => ?_
    cases List.mem_singleton.1 single
    exact ⟨isPlain_of_isCombinator joint.combines, isComma_of_isCombinator joint.combines⟩
  exact (closed_of_allBlank joint.leading_blank).append
    (sign.append (closed_of_allBlank joint.trailing_blank))

theorem Compound.closed_written (compound : Compound) : Closed (compound.text hostWritten) := by
  refine Hides.append ?_ (hides_tail separates_comma rfl compound)
  cases host : compound.head with
  | host argument => exact closed_hostWritten argument
  | bare | any | type => exact hides_head separates_comma rfl

/-- The commas of a selector are in brackets. -/
theorem Selector.closed_written (selector : Selector) : Closed selector.written := by
  induction selector with
  | last compound => exact compound.closed_written
  | joined compound joint rest ih =>
    exact compound.closed_written.append (joint.closed.append ih)

/-! ## The ends of a selector -/

/-- A text with no blanks at its ends. -/
structure Trimmed (s : List Char) : Prop where
  head : ∀ c ∈ s.head?, Text.isBlank c = false
  last : ∀ c ∈ s.getLast?, Text.isBlank c = false

section Trimmed

variable {a b : List Char}

theorem Trimmed.append (here : Trimmed a) (behind : Trimmed b) : Trimmed (a ++ b) where
  head c mem := by
    rw [List.head?_append, Option.mem_def, Option.or_eq_some_iff] at mem
    exact mem.elim (here.head c) fun found => behind.head c found.2
  last c mem := by
    rw [List.getLast?_append, Option.mem_def, Option.or_eq_some_iff] at mem
    exact mem.elim (behind.last c) fun found => here.last c found.2

/-- What is between two texts that are not empty is at no end. -/
theorem Trimmed.around (here : Trimmed a) (behind : Trimmed b) (some : a ≠ []) (some' : b ≠ [])
    (s : List Char) : Trimmed (a ++ (s ++ b)) where
  head c mem := by
    rw [List.head?_append, Option.mem_def, Option.or_eq_some_iff] at mem
    exact mem.elim (here.head c) fun found => absurd (List.head?_eq_none_iff.1 found.1) some
  last c mem := by
    rw [← List.append_assoc, List.getLast?_append, Option.mem_def, Option.or_eq_some_iff] at mem
    exact mem.elim (behind.last c) fun found => absurd (List.getLast?_eq_none_iff.1 found.1) some'

theorem trimmed_of_dark (dark : ∀ c ∈ a, Text.isBlank c = false) : Trimmed a where
  head c mem := dark c (List.mem_of_mem_head? mem)
  last c mem := dark c (List.mem_of_getLast? mem)

theorem trimmed_singleton {c : Char} (dark : Text.isBlank c = false) : Trimmed [c] :=
  trimmed_of_dark (List.forall_mem_singleton.2 dark)

theorem trimmed_flatMap {α : Type} {write : α → List Char} {list : List α}
    (each : ∀ x ∈ list, Trimmed (write x)) : Trimmed (list.flatMap write) := by
  induction list with
  | nil => exact trimmed_of_dark nofun
  | cons x list ih =>
    obtain ⟨here, later⟩ := List.forall_mem_cons.1 each
    rw [List.flatMap_cons]
    exact here.append (ih later)

end Trimmed

theorem Word.trimmed (name : Word) : Trimmed name.chars :=
  trimmed_of_dark fun c mem => isBlank_of_isNameChar (name.named c mem)

theorem trimmed_applied (argument : Option Argument) : Trimmed (applied argument) := by
  cases argument with
  | none => exact trimmed_of_dark nofun
  | some argument =>
    exact Trimmed.around (a := ['(']) (b := [')']) (trimmed_singleton rfl) (trimmed_singleton rfl)
      (List.cons_ne_nil _ _) (List.cons_ne_nil _ _) argument.chars

theorem Simple.trimmed (simple : Simple) : Trimmed simple.text := by
  cases simple with
  | ofClass name => exact Trimmed.append (a := ['.']) (trimmed_singleton rfl) name.trimmed
  | ofId name => exact Trimmed.append (a := ['#']) (trimmed_singleton rfl) name.trimmed
  | ofAttribute test =>
    exact Trimmed.around (a := ['[']) (b := [']']) (trimmed_singleton rfl) (trimmed_singleton rfl)
      (List.cons_ne_nil _ _) (List.cons_ne_nil _ _) test.chars

theorem Pseudo.trimmed (pseudo : Pseudo) : Trimmed pseudo.text := by
  refine Trimmed.append ?_ (pseudo.name.trimmed.append (trimmed_applied _))
  cases pseudo.element <;> exact trimmed_of_dark (by simp [Text.isBlank])

theorem Head.trimmed (head : Head) : Trimmed (head.text hostWritten) := by
  cases head with
  | bare => exact trimmed_of_dark nofun
  | any => exact trimmed_singleton rfl
  | type name => exact name.trimmed
  | host argument =>
    exact Trimmed.append (a := hostMark) (trimmed_of_dark (by simp [hostMark, Text.isBlank]))
      (trimmed_applied argument)

theorem Compound.trimmed (compound : Compound) : Trimmed (compound.text hostWritten) :=
  compound.head.trimmed.append ((trimmed_flatMap fun simple _ => simple.trimmed).append
    (trimmed_flatMap fun pseudo _ => pseudo.trimmed))

theorem Compound.text_ne_nil (compound : Compound) : compound.text hostWritten ≠ [] := by
  intro empty
  obtain ⟨noHead, noTail⟩ := List.append_eq_nil_iff.1 empty
  obtain ⟨noSimple, noPseudo⟩ := List.append_eq_nil_iff.1 noTail
  rcases compound.nonempty with head | simples | pseudos
  · cases kind : compound.head with
    | bare => exact head kind
    | any => rw [kind] at noHead; cases noHead
    | type name => rw [kind] at noHead; exact name.nonempty noHead
    | host argument => rw [kind] at noHead; cases noHead
  · obtain ⟨simple, rest, split⟩ := List.exists_cons_of_ne_nil simples
    have none := List.flatMap_eq_nil_iff.1 noSimple simple (split ▸ List.mem_cons_self)
    cases simple <;> cases none
  · obtain ⟨pseudo, rest, split⟩ := List.exists_cons_of_ne_nil pseudos
    have none := List.flatMap_eq_nil_iff.1 noPseudo pseudo (split ▸ List.mem_cons_self)
    rw [Pseudo.text] at none
    cases kind : pseudo.element <;> rw [kind] at none <;> cases none

/-- A compound goes on behind its head with a sign of its own. -/
theorem Compound.head?_tail (compound : Compound) :
    ∀ c ∈ compound.tail.head?, c ∈ ".#[:".toList := by
  rw [tail, simpleText, pseudoText]
  cases compound.simples with
  | cons simple simples => cases simple <;> (rintro c ⟨⟩; decide)
  | nil =>
    cases compound.pseudos with
    | nil => nofun
    | cons pseudo pseudos =>
      rw [List.flatMap_cons, Pseudo.text]
      cases pseudo.element <;> (rintro c ⟨⟩; decide)

theorem Compound.pseudoText_cases (compound : Compound) :
    compound.pseudoText = [] ∨ ∃ rest, compound.pseudoText = ':' :: rest := by
  rw [pseudoText]
  cases compound.pseudos with
  | nil => exact .inl rfl
  | cons pseudo pseudos =>
    rw [List.flatMap_cons, Pseudo.text]
    cases pseudo.element <;> exact .inr ⟨_, rfl⟩

theorem Joint.head?_text (joint : Joint) (s : List Char) :
    ∀ c ∈ (joint.text ++ s).head?, Text.isBlank c = true ∨ isCombinator c = true := by
  rw [text]
  cases blanks : joint.leading with
  | nil => rintro c ⟨⟩; exact .inr joint.combines
  | cons blank rest =>
    rintro c ⟨⟩
    exact .inl (List.all_eq_true.1 joint.leading_blank blank (blanks ▸ List.mem_cons_self))

/-- A selector is written with no blanks at its ends, and is not empty. -/
theorem Selector.trimmed (selector : Selector) :
    Trimmed selector.written ∧ selector.written ≠ [] := by
  induction selector with
  | last compound => exact ⟨compound.trimmed, compound.text_ne_nil⟩
  | joined compound joint rest ih =>
    refine ⟨Trimmed.around compound.trimmed ih.1 compound.text_ne_nil ih.2 joint.text, ?_⟩
    exact List.append_ne_nil_of_left_ne_nil compound.text_ne_nil _

end StyleModule.Css
