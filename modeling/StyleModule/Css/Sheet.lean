import StyleModule.Css.Lexeme
import StyleModule.Text.Blank

/-!
# Stylesheets as items

A stylesheet is a sequence of items, each of which is text up to and including the lexeme that ends
it: a comment, a statement with its semicolon, a closing brace that closes nothing, or a prelude with
its block. Semicolons and braces end an item only outside round brackets; a comment does anywhere.
What is left when no item ends any more is the tail.

A block belongs to a style rule, or to an at-rule, whose prelude begins with an at sign. The at-rules
that group style rules have a stylesheet in their block; the block of any other at-rule, like that of
a style rule, is kept as text.

The only text that is no stylesheet is one in which a block is opened and never closed. Any other is
the text of its items (`text_parse`).
-/

namespace StyleModule.Css

/-- A stylesheet as its first item and the rest. -/
inductive Sheet where
  | tail (text : List Char)
  | comment (text : List Char) (rest : Sheet)
  | statement (text : List Char) (rest : Sheet)
  | stray (text : List Char) (rest : Sheet)
  | block (prelude body : List Char) (rest : Sheet)
  | group (prelude : List Char) (body rest : Sheet)
  | rule (prelude body : List Char) (rest : Sheet)
  deriving DecidableEq, Repr

/-- The text of a stylesheet. -/
def Sheet.text : Sheet → List Char
  | .tail text => text
  | .comment text rest => text ++ rest.text
  | .statement text rest => text ++ rest.text
  | .stray text rest => text ++ rest.text
  | .block prelude body rest => prelude ++ '{' :: body ++ '}' :: rest.text
  | .group prelude body rest => prelude ++ '{' :: body.text ++ '}' :: rest.text
  | .rule prelude body rest => prelude ++ '{' :: body ++ '}' :: rest.text

/-! ## Items -/

/-- How many round brackets are open after a lexeme; one that closes nothing counts for nothing. -/
def parensAfter (parens : Nat) : Lexeme → Nat
  | .char '(' => parens + 1
  | .char ')' => parens - 1
  | _ => parens

/-- Does a lexeme end an item, with so many round brackets open? -/
def endsItem (parens : Nat) : Lexeme → Bool
  | .comment _ => true
  | .char c => parens = 0 && (c == '{' || c == '}' || c == ';')
  | .quoted _ => false

/-- The text before the next lexeme that ends an item, that lexeme, and what follows it. -/
def nextEnd : Nat → List Lexeme → Option (List Char × Lexeme × List Lexeme)
  | _, [] => none
  | parens, lexeme :: lexemes =>
    if endsItem parens lexeme then some ([], lexeme, lexemes)
    else
      (nextEnd (parensAfter parens lexeme) lexemes).map fun (before, stop, rest) =>
        (lexeme.text ++ before, stop, rest)

theorem nextEnd_shorter {parens : Nat} {lexemes : List Lexeme} {before : List Char} {stop : Lexeme}
    {rest : List Lexeme} (h : nextEnd parens lexemes = some (before, stop, rest)) :
    rest.length < lexemes.length := by
  induction lexemes generalizing parens before with
  | nil => simp [nextEnd] at h
  | cons lexeme lexemes ih =>
    simp only [nextEnd] at h
    split at h
    · simp only [Option.some.injEq, Prod.mk.injEq] at h
      simp [h.2.2]
    · simp only [Option.map_eq_some_iff, Prod.mk.injEq] at h
      obtain ⟨⟨b, l, r⟩, hr, _, rfl, rfl⟩ := h
      exact Nat.lt_succ_of_lt (ih hr)

theorem textOf_nextEnd {parens : Nat} {lexemes : List Lexeme} {before : List Char} {stop : Lexeme}
    {rest : List Lexeme} (h : nextEnd parens lexemes = some (before, stop, rest)) :
    textOf lexemes = before ++ stop.text ++ textOf rest := by
  induction lexemes generalizing parens before with
  | nil => simp [nextEnd] at h
  | cons lexeme lexemes ih =>
    simp only [nextEnd] at h
    split at h
    · simp only [Option.some.injEq, Prod.mk.injEq] at h
      obtain ⟨rfl, rfl, rfl⟩ := h
      rfl
    · simp only [Option.map_eq_some_iff, Prod.mk.injEq] at h
      obtain ⟨⟨b, l, r⟩, hr, rfl, rfl, rfl⟩ := h
      simp only [textOf, List.flatMap_cons] at ih ⊢
      rw [ih hr]; simp

/-- What stands before the brace that closes a block, and what follows it, with so many blocks open
inside the block. -/
def closeBlock : Nat → List Lexeme → Option (List Lexeme × List Lexeme)
  | _, [] => none
  | depth, .char '{' :: lexemes =>
    (closeBlock (depth + 1) lexemes).map fun (body, rest) => (.char '{' :: body, rest)
  | 0, .char '}' :: lexemes => some ([], lexemes)
  | depth + 1, .char '}' :: lexemes =>
    (closeBlock depth lexemes).map fun (body, rest) => (.char '}' :: body, rest)
  | depth, lexeme :: lexemes =>
    (closeBlock depth lexemes).map fun (body, rest) => (lexeme :: body, rest)

/-- The body, the closing brace and the rest are what was read. -/
theorem closeBlock_append {depth : Nat} {lexemes body rest : List Lexeme}
    (h : closeBlock depth lexemes = some (body, rest)) : lexemes = body ++ .char '}' :: rest := by
  fun_induction closeBlock depth lexemes generalizing body rest with
  | case1 => cases h
  | case3 lexemes => simp only [Option.some.injEq, Prod.mk.injEq] at h; simp [← h.1, ← h.2]
  | case2 depth lexemes ih | case4 lexemes depth ih | case5 depth lexeme lexemes _ _ _ ih =>
    simp only [Option.map_eq_some_iff, Prod.mk.injEq] at h
    obtain ⟨⟨b, r⟩, hr, rfl, rfl⟩ := h
    simp [ih hr]

/-- An item of a stylesheet, with the block of a prelude not looked into. -/
inductive Item where
  | comment (text : List Char)
  | statement (text : List Char)
  | stray (text : List Char)
  | block (prelude : List Char) (body : List Lexeme)
  deriving DecidableEq, Repr

/-- How an item is written. -/
def Item.text : Item → List Char
  | .comment text => text
  | .statement text => text
  | .stray text => text
  | .block prelude body => prelude ++ '{' :: textOf body ++ ['}']

/-- The lexemes inside an item's block. -/
def Item.inner : Item → List Lexeme
  | .block _ body => body
  | _ => []

/-- The item that lexemes begin with, and what follows it; nothing when no item ends any more. The
item may be a block that is not closed, whose prelude is then the reason why there is none. -/
def nextItem (lexemes : List Lexeme) : Except (List Char) (Option (Item × List Lexeme)) :=
  match nextEnd 0 lexemes with
  | none => .ok none
  | some (before, .char '{', rest) =>
    match closeBlock 0 rest with
    | some (body, rest) => .ok (some (.block before body, rest))
    | none => .error before
  | some (before, .char '}', rest) => .ok (some (.stray (before ++ ['}']), rest))
  | some (before, .comment text, rest) => .ok (some (.comment (before ++ text), rest))
  | some (before, stop, rest) => .ok (some (.statement (before ++ stop.text), rest))

/-- What follows an item, and what is inside it, is shorter than what it was read from. -/
theorem nextItem_shorter {lexemes rest : List Lexeme} {item : Item}
    (h : nextItem lexemes = .ok (some (item, rest))) :
    item.inner.length + rest.length < lexemes.length := by
  unfold nextItem at h
  split at h
  · cases h
  · next he =>
    have := nextEnd_shorter he
    split at h
    · next hb =>
      cases h
      rw [closeBlock_append hb] at this
      simp only [Item.inner, List.length_append, List.length_cons] at this ⊢
      omega
    · cases h
  all_goals
    next he =>
      have := nextEnd_shorter he
      cases h
      simpa [Item.inner] using this

/-- An item and what follows it are the text that it was read from. -/
theorem textOf_nextItem {lexemes rest : List Lexeme} {item : Item}
    (h : nextItem lexemes = .ok (some (item, rest))) :
    textOf lexemes = item.text ++ textOf rest := by
  unfold nextItem at h
  split at h
  · cases h
  · next he =>
    rw [textOf_nextEnd he]
    split at h
    · next hb =>
      cases h
      simp [closeBlock_append hb, Item.text, Lexeme.text, textOf]
    · cases h
  all_goals
    next he =>
      rw [textOf_nextEnd he]
      cases h
      simp [Item.text, Lexeme.text]

/-! ## Blocks -/

/-- What a block belongs to. -/
inductive BlockKind where
  | rule
  | group
  | other
  deriving DecidableEq, Repr

/-- The at-rules whose blocks hold style rules. -/
def groupingRules : List String := ["media", "supports", "container", "layer", "document"]

/-- The name that begins a text, in small letters: letters, digits and dashes. -/
def leadingName (s : List Char) : List Char :=
  (s.takeWhile fun c => c.isAlphanum || c == '-').map Char.toLower

/-- What a block belongs to, by its prelude without the blanks around it. -/
def BlockKind.of : List Char → BlockKind
  | '@' :: s =>
    if (groupingRules.map String.toList).contains (leadingName s) then .group else .other
  | _ => .rule

/-! ## Reading -/

/-- The items that lexemes make up, or the prelude of the block that is not closed. -/
def Sheet.ofLexemes (lexemes : List Lexeme) : Except (List Char) Sheet :=
  match _ : nextItem lexemes with
  | .error prelude => .error prelude
  | .ok none => .ok (.tail (textOf lexemes))
  | .ok (some (.comment text, rest)) => (ofLexemes rest).map (.comment text)
  | .ok (some (.statement text, rest)) => (ofLexemes rest).map (.statement text)
  | .ok (some (.stray text, rest)) => (ofLexemes rest).map (.stray text)
  | .ok (some (.block prelude body, rest)) =>
    match BlockKind.of (Text.trim prelude) with
    | .rule => (ofLexemes rest).map (.rule prelude (textOf body))
    | .other => (ofLexemes rest).map (.block prelude (textOf body))
    | .group => do
      let body ← ofLexemes body
      let rest ← ofLexemes rest
      .ok (.group prelude body rest)
termination_by lexemes.length
decreasing_by
  all_goals
    have := nextItem_shorter ‹_›
    simp only [Item.inner, List.length_nil] at this
    omega

/-- A result that was mapped into was there before. -/
theorem of_map_eq_ok {ε α β : Type} {f : α → β} {x : Except ε α} {b : β} (h : x.map f = .ok b) :
    ∃ a, x = .ok a ∧ b = f a := by
  cases x with
  | error => cases h
  | ok a => exact ⟨a, rfl, (Except.ok.inj h).symm⟩

/-- The items that lexemes make up are the text that the lexemes spell. -/
theorem Sheet.text_ofLexemes {lexemes : List Lexeme} {sheet : Sheet}
    (h : Sheet.ofLexemes lexemes = .ok sheet) : sheet.text = textOf lexemes := by
  fun_induction Sheet.ofLexemes lexemes generalizing sheet with
  | case1 => cases h
  | case2 => cases h; rfl
  | case3 _ _ _ hi ih | case4 _ _ _ hi ih | case5 _ _ _ hi ih =>
    obtain ⟨sheet, hs, rfl⟩ := of_map_eq_ok h
    rw [textOf_nextItem hi, Sheet.text, ih hs]; rfl
  | case6 _ _ _ _ hi _ ih | case7 _ _ _ _ hi _ ih =>
    obtain ⟨sheet, hs, rfl⟩ := of_map_eq_ok h
    rw [textOf_nextItem hi, Sheet.text, ih hs]; simp [Item.text]
  | case8 _ _ body rest hi _ inside outside =>
    cases hb : Sheet.ofLexemes body with
    | error => rw [hb] at h; cases h
    | ok inner =>
      cases hr : Sheet.ofLexemes rest with
      | error => rw [hb, hr] at h; cases h
      | ok outer =>
        rw [hb, hr] at h
        cases h
        rw [textOf_nextItem hi, Sheet.text, inside hb, outside hr]; simp [Item.text]

/-- The items of a text, or the prelude of the block that is not closed. -/
def Sheet.parse (s : List Char) : Except (List Char) Sheet := ofLexemes (lexemes s)

/-- The items of a text are the text. -/
theorem Sheet.text_parse {s : List Char} {sheet : Sheet} (h : Sheet.parse s = .ok sheet) :
    sheet.text = s :=
  (text_ofLexemes h).trans (textOf_lexemes s)

end StyleModule.Css
