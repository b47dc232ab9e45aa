import StyleModule.Json.Printer
import StyleModule.Json.Reader

/-!
# Records in JSON

A record is written as an object with its keys in a fixed order. It is read from an object, whose
known keys occur at most once and whose other members are passed over, or from an array that gives
the fields in that same order, without their keys.

What a field holds is one of a few kinds: a text, a truth value, a number of 32 bits, a choice among
named values, or a list. A field is required, optional (absent or `null` alike), or has a value of
its own to fall back on where it is absent.
-/

namespace StyleModule.Json

/-! ## What a field holds -/

/-- The text of a string. -/
def text? : Json → Option String
  | .str body => (unescape? body).map String.ofList
  | _ => none

/-- A truth value. -/
def bool? : Json → Option Bool
  | .bool b => some b
  | _ => none

/-- A number that is written with digits only and fits in 32 bits. -/
def word? : Json → Option UInt32
  | .num numeral =>
    if numeral.all Char.isDigit then
      let n := Nat.ofDigitChars 10 numeral 0
      if n < UInt32.size then some (UInt32.ofNat n) else none
    else none
  | _ => none

/-- A value that may be `null`. -/
def nullable? {α : Type} (read : Json → Option α) : Json → Option (Option α)
  | .null => some none
  | j => (read j).map some

/-- The items of an array. -/
def list? {α : Type} (read : Json → Option α) : Json → Option (List α)
  | .arr items => items.mapM read
  | _ => none

/-- One of several named values: the name, or an object that holds `null` under the name. -/
def choice? {α : Type} (named : List (String × α)) : Json → Option α
  | .str body => (unescape? body).bind fun name => named.lookup (String.ofList name)
  | .obj [(key, .null)] => (unescape? key).bind fun name => named.lookup (String.ofList name)
  | _ => none

/-! ## Records -/

/-- The fields that are there, by key. -/
abbrev Fields := List (String × Json)

/-- The fields of a record with the given keys. An array may leave out fields at its end as long as
`least` of them are there. -/
def fields? (keys : List String) (least : Nat) : Json → Option Fields
  | .arr items =>
    if least ≤ items.length ∧ items.length ≤ keys.length then some (keys.zip items) else none
  | .obj members => do
    let named ← members.mapM fun (key, value) =>
      (unescape? key).map fun name => (String.ofList name, value)
    let known := named.filter fun field => keys.contains field.1
    if (known.map Prod.fst).Nodup then some known else none
  | _ => none

/-- A field that has to be there. -/
def Fields.required {α : Type} (fields : Fields) (key : String) (read : Json → Option α) :
    Option α :=
  (fields.lookup key).bind read

/-- A field that may be absent, or `null`. -/
def Fields.optional {α : Type} (fields : Fields) (key : String) (read : Json → Option α) :
    Option (Option α) :=
  match fields.lookup key with
  | some j => nullable? read j
  | none => some none

/-- A field with a value to fall back on. -/
def Fields.orElse {α : Type} (fields : Fields) (key : String) (read : Json → Option α)
    (fallback : α) : Option α :=
  match fields.lookup key with
  | some j => read j
  | none => some fallback

/-- A record with its fields in the given order. -/
def ofFields (fields : Fields) : Json :=
  .obj (fields.map fun (key, value) => (escape key.toList, value))

/-- A value, or `null`. -/
def ofNullable {α : Type} (write : α → Json) : Option α → Json
  | some a => write a
  | none => .null

/-- A field that is left out where there is no value. -/
def field? {α : Type} (key : String) (write : α → Json) : Option α → Fields
  | some a => [(key, write a)]
  | none => []

end StyleModule.Json
