import StyleModule.Text.Blank
import StyleModule.Text.Search

/-!
# Scoping of selectors

A scope has three classes, named after it: its own, which the elements inside a component carry, one
for the component's host element, and one for slotted content. Scoping a selector list scopes each
of its selectors:

- `::slotted(x)` becomes `x` as a child of the slot class, and that is all that happens to a
  selector in which it occurs;
- `:host` becomes the host class, and `:host(x)` becomes `x` with the host class;
- the last compound gets the scope's own class in front of its first pseudo part, or at its end,
  unless the selector has a `:host` and the compound holds the host class.

A comma, combinator or colon counts where no bracket, round or square, is open.
-/

namespace StyleModule.Css

/-! ## The classes of a scope -/

/-- The class of the elements inside a component. -/
def ownClass (scope : List Char) : List Char := '.' :: scope

/-- The class of a component's host element. -/
def hostClass (scope : List Char) : List Char := '.' :: scope ++ "-h".toList

/-- The class of slotted content's parent. -/
def slotClass (scope : List Char) : List Char := '.' :: scope ++ "-s".toList

/-! ## Brackets -/

/-- How many brackets are open after a character; one that closes nothing counts for nothing. -/
def bracketsAfter (depth : Nat) (c : Char) : Nat :=
  if c = '(' ∨ c = '[' then depth + 1
  else if c = ')' ∨ c = ']' then depth - 1
  else depth

/-- The parts between the commas outside brackets, with so many brackets open at the start. -/
def splitList : Nat → List Char → List (List Char)
  | _, [] => [[]]
  | depth, c :: s =>
    if depth = 0 ∧ c = ',' then [] :: splitList 0 s
    else (splitList (bracketsAfter depth c) s).modifyHead (c :: ·)

/-- What stands before the bracket that closes an argument, and what follows it, with so many round
brackets open inside the argument. -/
def closeArgument : Nat → List Char → Option (List Char × List Char)
  | _, [] => none
  | depth, c :: s =>
    if c = ')' then
      match depth with
      | 0 => some ([], s)
      | depth + 1 => (closeArgument depth s).map fun (inner, rest) => (c :: inner, rest)
    else
      (closeArgument (if c = '(' then depth + 1 else depth) s).map fun (inner, rest) =>
        (c :: inner, rest)

theorem closeArgument_append {depth : Nat} {s inner rest : List Char}
    (h : closeArgument depth s = some (inner, rest)) : s = inner ++ ')' :: rest := by
  induction s generalizing depth inner with
  | nil => simp [closeArgument] at h
  | cons c s ih =>
    simp only [closeArgument] at h
    split at h
    · next hc =>
      split at h
      · simp only [Option.some.injEq, Prod.mk.injEq] at h
        simp [hc, ← h.1, ← h.2]
      · simp only [Option.map_eq_some_iff, Prod.mk.injEq] at h
        obtain ⟨⟨i, r⟩, hr, rfl, rfl⟩ := h
        simp [ih hr]
    · simp only [Option.map_eq_some_iff, Prod.mk.injEq] at h
      obtain ⟨⟨i, r⟩, hr, rfl, rfl⟩ := h
      simp [ih hr]

/-! ## Slotted content -/

/-- The pseudo-element that stands for slotted content, up to its argument. -/
def slottedMark : List Char := "::slotted(".toList

/-- What stands before the first `::slotted(x)`, its argument, and what follows it; there is none
where an argument is not closed. -/
def nextSlotted (s : List Char) : Option (List Char × List Char × List Char) :=
  match Text.cut? slottedMark s with
  | none => none
  | some (before, after) =>
    (closeArgument 0 after).map fun (inner, rest) => (before, inner, rest)

theorem nextSlotted_append {s before inner rest : List Char}
    (h : nextSlotted s = some (before, inner, rest)) :
    s = before ++ slottedMark ++ inner ++ ')' :: rest := by
  unfold nextSlotted at h
  split at h
  · cases h
  · next hc =>
    simp only [Option.map_eq_some_iff, Prod.mk.injEq] at h
    obtain ⟨⟨i, r⟩, ha, rfl, rfl, rfl⟩ := h
    rw [Text.cut?_append hc, closeArgument_append ha]
    simp

/-- A selector in which every `::slotted(x)` is `x` below the slot class. From one whose argument is
not closed on, the selector stays as it is. -/
def replaceSlotted (slot s : List Char) : List Char :=
  match _ : nextSlotted s with
  | none => s
  | some (before, inner, rest) =>
    before ++ slot ++ " > ".toList ++ Text.trim inner ++ replaceSlotted slot rest
termination_by s.length
decreasing_by
  rw [nextSlotted_append ‹nextSlotted s = _›]
  simp
  omega

/-! ## The host element -/

/-- The pseudo-class that stands for the host element. -/
def hostMark : List Char := ":host".toList

/-- The ways in which the mark of the host element is used: on its own, with an argument, or as the
beginning of another name. -/
inductive HostUse where
  | alone
  | applied (argument : List Char)
  | other
  deriving DecidableEq, Repr

/-- What a use of the mark becomes. -/
def HostUse.text (host : List Char) : HostUse → List Char
  | .alone => host
  | .applied argument => Text.trim argument ++ host
  | .other => hostMark

/-- How the mark is used, by what follows it, and what follows the use. An argument that is not
closed is none. -/
def hostUse : List Char → HostUse × List Char
  | '-' :: s => (.other, '-' :: s)
  | '(' :: s =>
    match closeArgument 0 s with
    | some (argument, rest) => (.applied argument, rest)
    | none => (.alone, '(' :: s)
  | s => (.alone, s)

theorem hostUse_shorter (s : List Char) : (hostUse s).2.length ≤ s.length := by
  unfold hostUse
  split
  · exact Nat.le_refl _
  · split
    · next h => rw [closeArgument_append h]; simp; omega
    · exact Nat.le_refl _
  · exact Nat.le_refl _

/-- A selector in which every `:host` is the host class, and every `:host(x)` is `x` with the host
class. What only begins like it, as `:host-context` does, stays as it is. -/
def replaceHost (host s : List Char) : List Char :=
  match _ : Text.cut? hostMark s with
  | none => s
  | some (before, after) =>
    before ++ (hostUse after).1.text host ++ replaceHost host (hostUse after).2
termination_by s.length
decreasing_by
  have := hostUse_shorter after
  rw [Text.cut?_append ‹Text.cut? hostMark s = _›]
  simp [hostMark]
  omega

/-! ## Compounds -/

/-- A character that ends a compound: a blank of the selector, or a combinator. -/
def isCombinator (c : Char) : Bool :=
  c == ' ' || c == '\t' || c == '\n' || c == '>' || c == '+' || c == '~'

/-- The text up to and including the last combinator outside brackets, and the compound after it,
where there is a combinator. -/
def cutLastCompound : Nat → List Char → Option (List Char × List Char)
  | _, [] => none
  | depth, c :: s =>
    match cutLastCompound (bracketsAfter depth c) s with
    | some (before, compound) => some (c :: before, compound)
    | none => if depth = 0 ∧ isCombinator c then some ([c], s) else none

/-- What stands before the last compound, and the last compound. -/
def lastCompound (s : List Char) : List Char × List Char := (cutLastCompound 0 s).getD ([], s)

/-- The pieces around the end of the last combinator are the selector. -/
theorem cutLastCompound_append {depth : Nat} {s before compound : List Char}
    (h : cutLastCompound depth s = some (before, compound)) : before ++ compound = s := by
  fun_induction cutLastCompound depth s generalizing before compound with
  | case1 => cases h
  | case2 _ _ _ _ _ hb ih => cases h; simp [ih hb]
  | case3 => cases h; rfl
  | case4 => cases h

/-- What stands before the last compound and the last compound are the selector. -/
theorem lastCompound_append (s : List Char) : (lastCompound s).1 ++ (lastCompound s).2 = s := by
  unfold lastCompound
  cases h : cutLastCompound 0 s with
  | none => rfl
  | some => exact cutLastCompound_append h

/-- A compound with a class in front of its first colon outside brackets, or else at its end. -/
def addClass (name : List Char) : Nat → List Char → List Char
  | _, [] => name
  | depth, c :: s =>
    if depth = 0 ∧ c = ':' then name ++ c :: s else c :: addClass name (bracketsAfter depth c) s

/-! ## Selectors -/

/-- A selector without slotted content, kept to a scope. -/
def scopeUnslotted (scope s : List Char) : List Char :=
  let hosted := Text.contains hostMark s
  let s := replaceHost (hostClass scope) s
  let (before, compound) := lastCompound s
  if hosted && Text.contains (hostClass scope) compound then s
  else before ++ addClass (ownClass scope) 0 compound

/-- A selector kept to a scope. -/
def scopeComplex (scope s : List Char) : List Char :=
  if Text.contains slottedMark s then replaceSlotted (slotClass scope) s else scopeUnslotted scope s

/-- A selector list kept to a scope. -/
def scopeList (scope s : List Char) : List Char :=
  ", ".toList.intercalate ((splitList 0 s).map fun part => scopeComplex scope (Text.trim part))

end StyleModule.Css
