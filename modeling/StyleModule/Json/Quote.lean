/-!
# Strings in JSON

A string is written with seven characters escaped by a letter or by themselves, the other controls
below the space as four hexadecimal digits, and everything else as it is. Reading accepts every
escape of the format; two escapes that are the halves of a surrogate pair are one character, and a
half alone is none.

`unescape?_escape` says that what was written is what is read.
-/

namespace StyleModule.Json

/-- The hexadecimal digit for a number below sixteen. -/
def hexDigit (n : Nat) : Char := Nat.digitChar n

/-- The number a hexadecimal digit stands for, in either letter case. -/
def hexValue? (c : Char) : Option Nat :=
  if '0' ≤ c ∧ c ≤ '9' then some (c.toNat - '0'.toNat)
  else if 'a' ≤ c ∧ c ≤ 'f' then some (c.toNat - 'a'.toNat + 10)
  else if 'A' ≤ c ∧ c ≤ 'F' then some (c.toNat - 'A'.toNat + 10)
  else none

/-- The number that four hexadecimal digits stand for. -/
def hexUnit? (a b c d : Char) : Option Nat := do
  some ((((← hexValue? a) * 16 + (← hexValue? b)) * 16 + (← hexValue? c)) * 16 + (← hexValue? d))

/-- One character as it is written in a string. -/
def escapeChar (c : Char) : List Char :=
  if c = '"' then ['\\', '"']
  else if c = '\\' then ['\\', '\\']
  else if c = '\x08' then ['\\', 'b']
  else if c = '\t' then ['\\', 't']
  else if c = '\n' then ['\\', 'n']
  else if c = '\x0c' then ['\\', 'f']
  else if c = '\r' then ['\\', 'r']
  else if c.toNat < 0x20 then
    ['\\', 'u', '0', '0', hexDigit (c.toNat / 16), hexDigit (c.toNat % 16)]
  else [c]

/-- A text as it is written between quotes. -/
def escape (s : List Char) : List Char := s.flatMap escapeChar

/-- A text as it is written, with its quotes. -/
def quote (s : List Char) : List Char := '"' :: escape s ++ ['"']

/-- The character that an escape by a single letter stands for. -/
def shortEscape? : Char → Option Char
  | '"' => some '"'
  | '\\' => some '\\'
  | '/' => some '/'
  | 'b' => some '\x08'
  | 'f' => some '\x0c'
  | 'n' => some '\n'
  | 'r' => some '\r'
  | 't' => some '\t'
  | _ => none

/-- The first half of a surrogate pair. -/
def isHighSurrogate (n : Nat) : Bool := 0xD800 ≤ n && n < 0xDC00

/-- The second half of a surrogate pair. -/
def isLowSurrogate (n : Nat) : Bool := 0xDC00 ≤ n && n < 0xE000

/-- The character that a surrogate pair stands for. -/
def pairChar (high low : Nat) : Char :=
  Char.ofNat (0x10000 + (high - 0xD800) * 0x400 + (low - 0xDC00))

/-- The text of what is written between quotes. -/
def unescape? : List Char → Option (List Char)
  | [] => some []
  | '\\' :: 'u' :: a :: b :: c :: d :: s =>
    match hexUnit? a b c d with
    | none => none
    | some unit =>
      if isLowSurrogate unit then none
      else if isHighSurrogate unit then
        match s with
        | '\\' :: 'u' :: a :: b :: c :: d :: s =>
          match hexUnit? a b c d with
          | none => none
          | some low =>
            if isLowSurrogate low then (unescape? s).map (pairChar unit low :: ·) else none
        | _ => none
      else (unescape? s).map (Char.ofNat unit :: ·)
  | '\\' :: c :: s =>
    match shortEscape? c with
    | some e => (unescape? s).map (e :: ·)
    | none => none
  | c :: s =>
    if c = '\\' ∨ c = '"' ∨ c.toNat < 0x20 then none else (unescape? s).map (c :: ·)

/-- The four digits of a control character below the space stand for it. -/
theorem hexUnit?_control :
    ∀ n < 32, hexUnit? '0' '0' (hexDigit (n / 16)) (hexDigit (n % 16)) = some n := by
  decide

/-- One character as it is written is read as that character. -/
theorem unescape?_escapeChar (c : Char) (s : List Char) :
    unescape? (escapeChar c ++ s) = (unescape? s).map (c :: ·) := by
  unfold escapeChar
  split; · subst c; rfl
  split; · subst c; rfl
  split; · subst c; rfl
  split; · subst c; rfl
  split; · subst c; rfl
  split; · subst c; rfl
  split; · subst c; rfl
  split
  · next h =>
    have low : isLowSurrogate c.toNat = false := by simp [isLowSurrogate]; omega
    have high : isHighSurrogate c.toNat = false := by simp [isHighSurrogate]; omega
    simp [unescape?, hexUnit?_control c.toNat h, low, high]
  · next hq hb _ _ _ _ _ h =>
    rw [List.singleton_append, unescape?.eq_4 c s (by simp_all) (by simp_all)]
    simp [hq, hb, h]

/-- What was written is what is read. -/
theorem unescape?_escape (s : List Char) : unescape? (escape s) = some s := by
  induction s with
  | nil => rfl
  | cons c s ih =>
    simp only [escape, List.flatMap_cons] at ih ⊢
    rw [unescape?_escapeChar, ih]; rfl

end StyleModule.Json
