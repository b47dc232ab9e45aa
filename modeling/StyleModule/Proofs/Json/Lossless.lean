import StyleModule.Json.Fields
import StyleModule.Proofs.Json.Written

/-!
# What is written without loss

A way of writing and a way of reading fit where the one gives back what the other was given
(`Lossless`). Each kind of field has its pair that fits, and a list of what fits does. Of a record,
the fields that are there come back as they are (`fields?_ofFields`), each is found wherever it
stands (`lookup_perm`), and an optional one comes back whether it was left out or written
(`Lossless.optional_eq`).
-/

namespace StyleModule.Json

/-- What `write` makes of a value is a written value, not `null`, that `read` gives back. -/
structure Lossless {α : Type} (write : α → Json) (read : Json → Option α) : Prop where
  written : ∀ a, Written (write a)
  ne_null : ∀ a, write a ≠ .null
  read_write : ∀ a, read (write a) = some a

namespace Lossless

/-! ## Kinds of fields -/

theorem text : Lossless ofText text? where
  written := .text
  ne_null := nofun
  read_write s := by
    show (unescape? (escape s.toList)).map String.ofList = some s
    rw [unescape?_escape, Option.map_some, String.ofList_toList]

theorem bool : Lossless .bool bool? where
  written := .bool
  ne_null := nofun
  read_write _ := rfl

theorem word : Lossless (fun n : UInt32 => ofNat n.toNat) word? where
  written n := .number n.toNat
  ne_null := nofun
  read_write n := by
    have digits : (Nat.toDigits 10 n.toNat).all Char.isDigit = true :=
      List.all_eq_true.2 fun c mem => Nat.isDigit_of_mem_toDigits (by decide) (by decide) mem
    have number : Nat.ofDigitChars 10 (Nat.toDigits 10 n.toNat) 0 = n.toNat :=
      Nat.ofDigitChars_toDigits (by decide) (by decide)
    show (if (Nat.toDigits 10 n.toNat).all Char.isDigit then
        if Nat.ofDigitChars 10 (Nat.toDigits 10 n.toNat) 0 < UInt32.size then
          some (UInt32.ofNat (Nat.ofDigitChars 10 (Nat.toDigits 10 n.toNat) 0)) else none
      else none) = some n
    rw [if_pos digits, number, if_pos n.toNat_lt_size, UInt32.ofNat_toNat]

/-- A choice is given back where each value stands under its own name. -/
theorem choice {α : Type} {named : List (String × α)} {name : α → String}
    (own : ∀ a, named.lookup (name a) = some a) :
    Lossless (fun a => ofText (name a)) (choice? named) where
  written a := .text (name a)
  ne_null := nofun
  read_write a := by
    show ((unescape? (escape (name a).toList)).bind
      fun s => named.lookup (String.ofList s)) = some a
    rw [unescape?_escape, Option.bind_some, String.ofList_toList, own]

variable {α : Type} {write : α → Json} {read : Json → Option α} (fit : Lossless write read)

include fit

theorem list : Lossless (fun as => .arr (as.map write)) (list? read) where
  written as := by
    apply Written.arr
    intro item mem
    obtain ⟨a, _, rfl⟩ := List.mem_map.1 mem
    exact fit.written a
  ne_null := nofun
  read_write as := by
    show (as.map write).mapM read = some as
    induction as with
    | nil => rfl
    | cons a as ih => rw [List.map_cons, List.mapM_cons, fit.read_write, ih]; rfl

theorem written_ofNullable (o : Option α) : Written (ofNullable write o) := by
  cases o with
  | none => exact .null
  | some a => exact fit.written a

theorem nullable?_write (a : α) : nullable? read (write a) = some (some a) := by
  rw [nullable?.eq_2 _ _ (fit.ne_null a), fit.read_write]
  rfl

theorem nullable?_ofNullable (o : Option α) : nullable? read (ofNullable write o) = some o := by
  cases o with
  | none => rfl
  | some a => exact fit.nullable?_write a

/-- What is written is read back from its compact text. -/
theorem read_render (a : α) : (parse? (write a).render).bind read = some a := by
  rw [parse?_render (fit.written a), Option.bind_some, fit.read_write]

/-! ## Fields -/

theorem required_eq {fields : Fields} {key : String} (a : α)
    (there : fields.lookup key = some (write a)) : fields.required key read = some a := by
  rw [Fields.required, there, Option.bind_some, fit.read_write]

theorem optional_eq_of_nullable {fields : Fields} {key : String} (o : Option α)
    (there : fields.lookup key = some (ofNullable write o)) :
    fields.optional key read = some o := by
  rw [Fields.optional, there]
  exact fit.nullable?_ofNullable o

theorem optional_eq {fields : Fields} {key : String} (o : Option α)
    (there : fields.lookup key = o.map write) : fields.optional key read = some o := by
  rw [Fields.optional, there]
  cases o with
  | none => rfl
  | some a => exact fit.nullable?_write a

theorem orElse_eq {fields : Fields} {key : String} (a : α) {fallback : α}
    (there : fields.lookup key = some (write a)) : fields.orElse key read fallback = some a := by
  rw [Fields.orElse, there]
  exact fit.read_write a

end Lossless

/-! ## Records -/

theorem lookup_field? {α : Type} (key own : String) (write : α → Json) (o : Option α) :
    (field? own write o).lookup key = if key = own then o.map write else none := by
  cases o with
  | none => rw [Option.map_none, ite_self]; rfl
  | some a =>
    show (match key == own with | true => some (write a) | false => none) = _
    by_cases same : key = own
    · rw [beq_iff_eq.2 same, if_pos same, Option.map_some]
    · rw [beq_eq_false_iff_ne.2 same, if_neg same]

theorem map_fst_field?_sublist {α : Type} (key : String) (write : α → Json) (o : Option α) :
    ((field? key write o).map Prod.fst).Sublist [key] := by
  cases o with
  | none => exact List.nil_sublist _
  | some a => exact List.Sublist.refl _

theorem written_field? {α : Type} {write : α → Json} (written : ∀ a, Written (write a))
    (key : String) (o : Option α) : ∀ field ∈ field? key write o, Written field.2 := by
  cases o with
  | none => exact nofun
  | some a =>
    intro field mem
    rw [List.mem_singleton.1 mem]
    exact written a

/-- Where the keys are distinct, what is found under a key is what stands with it. -/
theorem lookup_eq_some_iff_mem {fields : Fields} (distinct : (fields.map Prod.fst).Nodup)
    {k : String} {j : Json} : fields.lookup k = some j ↔ (k, j) ∈ fields := by
  rw [List.lookup_eq_some_iff]
  constructor
  · rintro ⟨before, after, rfl, _⟩
    exact List.mem_append_right _ List.mem_cons_self
  · intro mem
    obtain ⟨before, after, rfl⟩ := List.append_of_mem mem
    refine ⟨before, after, rfl, fun field there => bne_iff_ne.2 ?_⟩
    rw [List.map_append, List.nodup_append] at distinct
    exact (distinct.2.2 field.1 (List.mem_map_of_mem there) k List.mem_cons_self).symm

theorem lookup_perm {fields fields' : Fields} (perm : fields.Perm fields')
    (distinct : (fields.map Prod.fst).Nodup) (k : String) :
    fields.lookup k = fields'.lookup k := by
  ext j
  rw [lookup_eq_some_iff_mem distinct, lookup_eq_some_iff_mem ((perm.map _).nodup distinct),
    perm.mem_iff]

/-- A record gives its fields back, in whatever order they stand, where each of its keys is a known
one and stands for one field. -/
theorem fields?_ofFields {keys : List String} {fields : Fields}
    (distinct : (fields.map Prod.fst).Nodup) (known : fields.map Prod.fst ⊆ keys) (least : Nat) :
    fields? keys least (ofFields fields) = some fields := by
  have names : (fields.map fun field : String × Json => (escape field.1.toList, field.2)).mapM
      (fun member => (unescape? member.1).map fun name => (String.ofList name, member.2)) =
        some fields := by
    rw [List.mapM_map]
    have own : ((fun member : List Char × Json => (unescape? member.1).map
        fun name => (String.ofList name, member.2)) ∘
          fun field : String × Json => (escape field.1.toList, field.2)) =
        fun field => pure field := by
      funext field
      show (unescape? (escape field.1.toList)).map _ = some field
      rw [unescape?_escape, Option.map_some, String.ofList_toList]
    rw [own, List.mapM_pure, List.map_id']
    rfl
  have all : fields.filter (fun field => keys.contains field.1) = fields :=
    List.filter_eq_self.2 fun field mem =>
      List.contains_iff_mem.2 (known (List.mem_map_of_mem mem))
  refine (congrArg (Option.bind · _) names).trans ?_
  show (if ((fields.filter fun field => keys.contains field.1).map Prod.fst).Nodup then
    some (fields.filter fun field => keys.contains field.1) else none) = some fields
  rw [all, if_pos distinct]

theorem written_ofFields {fields : Fields} (each : ∀ field ∈ fields, Written field.2) :
    Written (ofFields fields) := by
  apply Written.obj
  · intro member mem
    obtain ⟨field, _, rfl⟩ := List.mem_map.1 mem
    exact ⟨field.1.toList, rfl⟩
  · intro member mem
    obtain ⟨field, known, rfl⟩ := List.mem_map.1 mem
    exact each field known

/-- A record is written without loss where its fields stand in the order of its keys, each of them
is a written value, and the fields give the record back. -/
theorem Lossless.record {α : Type} {keys : List String} {least : Nat} {write : α → Fields}
    {read : Fields → Option α} (distinct : keys.Nodup)
    (ordered : ∀ a, ((write a).map Prod.fst).Sublist keys)
    (each : ∀ a, ∀ field ∈ write a, Written field.2) (back : ∀ a, read (write a) = some a) :
    Lossless (fun a => ofFields (write a)) (fun j => (fields? keys least j).bind read) where
  written a := written_ofFields (each a)
  ne_null := nofun
  read_write a := by
    rw [fields?_ofFields (distinct.sublist (ordered a)) (ordered a).subset least, Option.bind_some,
      back]

end StyleModule.Json
