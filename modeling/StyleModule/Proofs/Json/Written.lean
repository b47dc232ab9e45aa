import StyleModule.Json.Printer
import StyleModule.Proofs.Json.Body

/-!
# Reading a written value

A value that is made of texts, numbers and truth values is read back from its compact text
(`parse?_render`). The reader takes each value of a list from the text it begins, so what is shown
of a value holds with any text behind it that does not go on with a numeral; commas and closing
brackets do not. Two steps for each character are enough, which is what `parse?` grants.
-/

namespace StyleModule.Json

/-- A value that is made of texts, numbers and truth values. -/
inductive Written : Json → Prop
  | null : Written .null
  | bool (b : Bool) : Written (.bool b)
  | number (n : Nat) : Written (ofNat n)
  | text (s : String) : Written (ofText s)
  | arr {items : List Json} (each : ∀ item ∈ items, Written item) : Written (.arr items)
  | obj {members : List (List Char × Json)}
      (keys : ∀ member ∈ members, ∃ key, member.1 = escape key)
      (each : ∀ member ∈ members, Written member.2) : Written (.obj members)

/-- A text that no numeral goes on with. -/
def Delimits (rest : List Char) : Prop :=
  ∀ c ∈ rest.head?, c.isDigit = false ∧ c ≠ '.' ∧ c ≠ 'e' ∧ c ≠ 'E'

theorem delimits_nil : Delimits [] := nofun

theorem delimits_cons {c : Char} (mark : c = ',' ∨ c = ']' ∨ c = '}') (s : List Char) :
    Delimits (c :: s) := by
  intro d first
  cases first
  rcases mark with rfl | rfl | rfl <;> decide

/-! ## Numerals -/

theorem isSpace_of_isDigit {c : Char} (digit : c.isDigit = true) : isSpace c = false := by
  rw [isSpace]
  simp only [Bool.or_eq_false_iff, beq_eq_false_iff_ne]
  refine ⟨⟨⟨?_, ?_⟩, ?_⟩, ?_⟩ <;> rintro rfl <;> cases digit

/-- The text of a number begins with a digit. -/
theorem exists_toDigits_isDigit (n : Nat) :
    ∃ c s, Nat.toDigits 10 n = c :: s ∧ c.isDigit = true := by
  obtain ⟨c, s, split⟩ := List.exists_cons_of_ne_nil (Nat.toDigits_ne_nil (n := n) (b := 10))
  have first : c ∈ Nat.toDigits 10 n := split ▸ List.mem_cons_self
  exact ⟨c, s, split, Nat.isDigit_of_mem_toDigits (by decide) (by decide) first⟩

/-- A number other than zero is written with no zero in front. -/
theorem exists_toDigits_eq_cons {n : Nat} (positive : n ≠ 0) :
    ∃ c s, Nat.toDigits 10 n = c :: s ∧ c ≠ '0' := by
  induction n using Nat.strongRecOn with
  | _ n ih =>
    by_cases small : n < 10
    · have table : ∀ n < 10, n ≠ 0 → n.digitChar ≠ '0' := by decide
      exact ⟨_, [], Nat.toDigits_of_lt_base small, table n small positive⟩
    · obtain ⟨c, s, written, other⟩ := ih (n / 10) (by omega) (by omega)
      rw [Nat.toDigits_of_base_le (by decide) (by omega), written]
      exact ⟨c, _, rfl, other⟩

theorem readFraction_of_delimits {rest : List Char} (ends : Delimits rest) :
    readFraction rest = some ([], rest) := by
  cases rest with
  | nil => rfl
  | cons c s => exact readFraction.eq_2 _ fun t split => (ends c rfl).2.1 (List.cons.inj split).1

theorem readExponent_of_delimits {rest : List Char} (ends : Delimits rest) :
    readExponent rest = some ([], rest) := by
  cases rest with
  | nil => rfl
  | cons c s =>
    unfold readExponent
    exact if_neg (not_or.2 (ends c rfl).2.2)

theorem readDigits_append {digits rest : List Char} (some : digits ≠ [])
    (all : ∀ c ∈ digits, c.isDigit = true) (ends : Delimits rest) :
    readDigits (digits ++ rest) = .some (digits, rest) := by
  have stops : rest.takeWhile Char.isDigit = [] ∧ rest.dropWhile Char.isDigit = rest := by
    cases rest with
    | nil => exact ⟨rfl, rfl⟩
    | cons c s =>
      have other : ¬ c.isDigit = true := by simp [(ends c rfl).1]
      exact ⟨List.takeWhile_cons_of_neg other, List.dropWhile_cons_of_neg other⟩
  obtain ⟨c, s, rfl⟩ := List.exists_cons_of_ne_nil some
  have first : ((c :: s ++ rest).head?.any Char.isDigit) = true := all c List.mem_cons_self
  rw [readDigits, if_pos first, List.takeWhile_append_of_pos all, List.dropWhile_append_of_pos all,
    stops.1, stops.2, List.append_nil]

/-- A number is read up to where its digits end. -/
theorem readNumeral_toDigits (n : Nat) {rest : List Char} (ends : Delimits rest) :
    readNumeral (Nat.toDigits 10 n ++ rest) = some (Nat.toDigits 10 n, rest) := by
  have digits : ∀ c ∈ Nat.toDigits 10 n, c.isDigit = true :=
    fun c hc => Nat.isDigit_of_mem_toDigits (by decide) (by decide) hc
  have whole : readWhole (Nat.toDigits 10 n ++ rest) = some (Nat.toDigits 10 n, rest) := by
    by_cases zero : n = 0
    · rw [zero]
      rfl
    · obtain ⟨c, s, written, other⟩ := exists_toDigits_eq_cons zero
      rw [readWhole.eq_2]
      · exact readDigits_append Nat.toDigits_ne_nil digits ends
      · intro t split
        rw [written] at split
        exact other (List.cons.inj split).1
  have unsigned : readUnsigned (Nat.toDigits 10 n ++ rest) = some (Nat.toDigits 10 n, rest) := by
    simp only [readUnsigned, whole, readFraction_of_delimits ends, readExponent_of_delimits ends,
      Option.bind_eq_bind, Option.bind_some, List.append_nil]
  rw [readNumeral.eq_2, unsigned]
  intro t split
  obtain ⟨c, s, written, digit⟩ := exists_toDigits_isDigit n
  rw [written] at split
  rw [(List.cons.inj split).1] at digit
  cases digit

/-! ## Values -/

theorem skip_cons {c : Char} (dark : isSpace c = false) (s : List Char) : skip (c :: s) = c :: s :=
  List.dropWhile_cons_of_neg (by simp [dark])

/-- A written value begins neither with a blank nor with a closing bracket. -/
theorem Written.exists_compact {j : Json} (written : Written j) :
    ∃ c s, j.compact = c :: s ∧ isSpace c = false ∧ c ≠ ']' := by
  cases written with
  | null => exact ⟨'n', _, rfl, rfl, by decide⟩
  | bool b =>
    cases b with
    | true => exact ⟨'t', _, rfl, rfl, by decide⟩
    | false => exact ⟨'f', _, rfl, rfl, by decide⟩
  | number n =>
    obtain ⟨c, s, split, digit⟩ := exists_toDigits_isDigit n
    refine ⟨c, s, split, isSpace_of_isDigit digit, ?_⟩
    rintro rfl
    cases digit
  | text s => exact ⟨'"', _, rfl, rfl, by decide⟩
  | arr each => exact ⟨'[', _, rfl, rfl, by decide⟩
  | obj keys each => exact ⟨'{', _, rfl, rfl, by decide⟩

theorem Written.skip_compact {j : Json} (written : Written j) (rest : List Char) :
    skip (j.compact ++ rest) = j.compact ++ rest := by
  obtain ⟨c, s, split, dark, _⟩ := written.exists_compact
  rw [split]
  exact skip_cons dark _

theorem Written.exists_steps {j : Json} (written : Written j) {n : Nat}
    (steps : 2 * j.compact.length ≤ n) : ∃ m, n = m + 1 := by
  obtain ⟨c, s, split, _, _⟩ := written.exists_compact
  rw [split, List.length_cons] at steps
  exact ⟨n - 1, by omega⟩

/-- Two steps for each character are enough to take the value from a text that it begins. -/
def ReadBack (j : Json) : Prop :=
  ∀ n rest, 2 * j.compact.length ≤ n → Delimits rest →
    readValue n (j.compact ++ rest) = some (j, rest)

theorem readBack_ofText (s : String) : ReadBack (ofText s) := by
  intro n rest steps ends
  obtain ⟨n, rfl⟩ := (Written.text s).exists_steps steps
  have quoted : (ofText s).compact ++ rest = '"' :: (escape s.toList ++ '"' :: rest) := by
    simp only [ofText, compact, List.cons_append, List.append_assoc, List.nil_append]
  rw [quoted, readValue, readBody_escape]
  rfl

theorem readBack_ofNat (number : Nat) : ReadBack (ofNat number) := by
  intro n rest steps ends
  obtain ⟨c, s, split, digit⟩ := exists_toDigits_isDigit number
  have digits : (ofNat number).compact = Nat.toDigits 10 number := rfl
  obtain ⟨n, rfl⟩ := (Written.number number).exists_steps steps
  have other : ∀ d : Char, d.isDigit = false → ∀ t, (ofNat number).compact ++ rest ≠ d :: t := by
    intro d letter t same
    rw [digits, split] at same
    rw [← (List.cons.inj same).1, digit] at letter
    cases letter
  rw [readValue.eq_8]
  · rw [digits, readNumeral_toDigits number ends]
    rfl
  · exact fun _ => other 'n' rfl _
  · exact fun _ => other 't' rfl _
  · exact fun _ => other 'f' rfl _
  · exact fun _ => other '"' rfl _
  · exact fun _ => other '[' rfl _
  · exact fun _ => other '{' rfl _

theorem compactItems_cons (item next : Json) (items : List Json) :
    compactItems (item :: next :: items) = item.compact ++ ',' :: compactItems (next :: items) := by
  rw [compactItems]
  exact nofun

theorem compactMembers_cons (member next : List Char × Json) (members : List (List Char × Json)) :
    compactMembers (member :: next :: members) =
      '"' :: member.1 ++ '"' :: ':' :: member.2.compact ++
        ',' :: compactMembers (next :: members) := by
  rw [compactMembers]
  exact nofun

/-- Behind an opening bracket that nothing closes at once stand items. -/
theorem readValue_bracket {n : Nat} {c : Char} {s : List Char} (dark : isSpace c = false)
    (other : c ≠ ']') :
    readValue (n + 1) ('[' :: c :: s) =
      (readItems n (c :: s)).map fun (items, rest) => (.arr items, rest) := by
  rw [readValue, skip_cons dark]
  split
  next closed => exact absurd (List.cons.inj closed).1 other
  next => rfl

/-- Behind an opening brace that a key follows stand members. -/
theorem readValue_brace {n : Nat} {s : List Char} :
    readValue (n + 1) ('{' :: '"' :: s) =
      (readMembers n ('"' :: s)).map fun (members, rest) => (.obj members, rest) :=
  rfl

/-- Items begin neither with a blank nor with a closing bracket. -/
theorem exists_compactItems {item : Json} (written : Written item) (items : List Json) :
    ∃ c s, compactItems (item :: items) = c :: s ∧ isSpace c = false ∧ c ≠ ']' := by
  obtain ⟨c, s, split, dark, other⟩ := written.exists_compact
  cases items with
  | nil => exact ⟨c, s, by rw [compactItems, split], dark, other⟩
  | cons next items => exact ⟨c, _, by rw [compactItems_cons, split]; rfl, dark, other⟩

theorem exists_compactMembers (member : List Char × Json) (members : List (List Char × Json)) :
    ∃ s, compactMembers (member :: members) = '"' :: s := by
  cases members with
  | nil => exact ⟨_, by rw [compactMembers]; rfl⟩
  | cons next members => exact ⟨_, by rw [compactMembers_cons]; rfl⟩

/-- Items between commas are read up to the closing bracket, each by the steps of its own. -/
theorem readItems_compact {items : List Json} (some : items ≠ [])
    (each : ∀ item ∈ items, Written item ∧ ReadBack item) {n : Nat} (rest : List Char)
    (steps : 2 * (compactItems items).length + 1 ≤ n) :
    readItems n (compactItems items ++ ']' :: rest) = .some (items, rest) := by
  induction items generalizing n with
  | nil => exact absurd rfl some
  | cons item items ih =>
    obtain ⟨n, rfl⟩ : ∃ m, n = m + 1 := ⟨n - 1, by omega⟩
    have back : ReadBack item := (each item List.mem_cons_self).2
    cases items with
    | nil =>
      have bound : 2 * item.compact.length ≤ n := by
        rw [compactItems] at steps
        omega
      rw [compactItems, readItems, back n _ bound (delimits_cons (.inr (.inl rfl)) rest)]
      rfl
    | cons next items =>
      rw [compactItems_cons, List.length_append, List.length_cons] at steps
      have others := ih nofun (fun other mem => each other (List.mem_cons_of_mem _ mem))
        (by omega : 2 * (compactItems (next :: items)).length + 1 ≤ n)
      have written : Written next := (each next (by simp)).1
      rw [compactItems_cons, List.append_assoc, readItems,
        List.cons_append, back n _ (by omega) (delimits_cons (.inl rfl) _)]
      show Option.map _ (readItems n (skip (compactItems (next :: items) ++ ']' :: rest))) = _
      obtain ⟨c, s, split, dark, _⟩ := exists_compactItems written items
      rw [split] at others ⊢
      rw [List.cons_append, skip_cons dark, ← List.cons_append, others]
      rfl

/-- Members between commas are read up to the closing brace, each by the steps of its own. -/
theorem readMembers_compact {members : List (List Char × Json)} (some : members ≠ [])
    (keys : ∀ member ∈ members, ∃ key, member.1 = escape key)
    (each : ∀ member ∈ members, Written member.2 ∧ ReadBack member.2) {n : Nat}
    (rest : List Char) (steps : 2 * (compactMembers members).length + 1 ≤ n) :
    readMembers n (compactMembers members ++ '}' :: rest) = .some (members, rest) := by
  induction members generalizing n with
  | nil => exact absurd rfl some
  | cons member members ih =>
    obtain ⟨n, rfl⟩ : ∃ m, n = m + 1 := ⟨n - 1, by omega⟩
    obtain ⟨body, value⟩ := member
    obtain ⟨key, rfl⟩ : ∃ key, body = escape key := keys _ List.mem_cons_self
    obtain ⟨written, back⟩ : Written value ∧ ReadBack value := each _ List.mem_cons_self
    cases members with
    | nil =>
      have bound : 2 * value.compact.length ≤ n := by
        simp only [compactMembers, List.length_append, List.length_cons] at steps
        omega
      have split : compactMembers [(escape key, value)] ++ '}' :: rest =
          '"' :: (escape key ++ '"' :: ':' :: (value.compact ++ '}' :: rest)) := by
        simp only [compactMembers, List.cons_append, List.append_assoc]
      rw [split, readMembers, readBody_escape]
      show (readValue n (skip (value.compact ++ '}' :: rest))).bind _ = _
      rw [written.skip_compact, back n _ bound (delimits_cons (.inr (.inr rfl)) rest)]
      rfl
    | cons next members =>
      simp only [compactMembers_cons, List.length_append, List.length_cons] at steps
      have others := ih nofun (fun other mem => keys other (List.mem_cons_of_mem _ mem))
        (fun other mem => each other (List.mem_cons_of_mem _ mem))
        (by omega : 2 * (compactMembers (next :: members)).length + 1 ≤ n)
      have split : compactMembers ((escape key, value) :: next :: members) ++ '}' :: rest =
          '"' :: (escape key ++ '"' :: ':' :: (value.compact ++
            ',' :: (compactMembers (next :: members) ++ '}' :: rest))) := by
        simp only [compactMembers_cons, List.cons_append, List.append_assoc]
      rw [split, readMembers, readBody_escape]
      show (readValue n (skip (value.compact ++ _))).bind _ = _
      rw [written.skip_compact, back n _ (by omega) (delimits_cons (.inl rfl) _)]
      show Option.map _ (readMembers n (skip (compactMembers (next :: members) ++ '}' :: rest))) = _
      obtain ⟨s, split⟩ := exists_compactMembers next members
      rw [split] at others ⊢
      rw [List.cons_append, skip_cons rfl, ← List.cons_append, others]
      rfl

/-- A written value is taken from a text that it begins, by two steps for each of its characters. -/
theorem Written.readBack {j : Json} (written : Written j) : ReadBack j := by
  induction written with
  | null =>
    intro n rest steps ends
    obtain ⟨n, rfl⟩ := Written.null.exists_steps steps
    rfl
  | bool b =>
    intro n rest steps ends
    obtain ⟨n, rfl⟩ := (Written.bool b).exists_steps steps
    cases b <;> rfl
  | number n => exact readBack_ofNat n
  | text s => exact readBack_ofText s
  | @arr items each ih =>
    intro n rest steps ends
    have split : compact (.arr items) ++ rest = '[' :: (compactItems items ++ ']' :: rest) := by
      simp only [compact, List.cons_append, List.append_assoc, List.nil_append]
    simp only [compact, List.length_append, List.length_cons] at steps
    obtain ⟨n, rfl⟩ : ∃ m, n = m + 1 := ⟨n - 1, by omega⟩
    rw [split]
    cases items with
    | nil => rfl
    | cons item items =>
      have all := readItems_compact (List.cons_ne_nil item items)
        (fun item mem => ⟨each item mem, ih item mem⟩) rest
        (by omega : 2 * (compactItems (item :: items)).length + 1 ≤ n)
      obtain ⟨c, s, split, dark, other⟩ := exists_compactItems (each item List.mem_cons_self) items
      rw [split, List.cons_append] at all ⊢
      rw [readValue_bracket dark other, all]
      rfl
  | @obj members keys each ih =>
    intro n rest steps ends
    have split : compact (.obj members) ++ rest =
        '{' :: (compactMembers members ++ '}' :: rest) := by
      simp only [compact, List.cons_append, List.append_assoc, List.nil_append]
    simp only [compact, List.length_append, List.length_cons] at steps
    obtain ⟨n, rfl⟩ : ∃ m, n = m + 1 := ⟨n - 1, by omega⟩
    rw [split]
    cases members with
    | nil => rfl
    | cons member members =>
      have all := readMembers_compact (List.cons_ne_nil member members) keys
        (fun member mem => ⟨each member mem, ih member mem⟩) rest
        (by omega : 2 * (compactMembers (member :: members)).length + 1 ≤ n)
      obtain ⟨s, split⟩ := exists_compactMembers member members
      rw [split, List.cons_append] at all ⊢
      rw [readValue_brace, all]
      rfl

/-- A written value is read back from its compact text. -/
theorem parse?_render {j : Json} (written : Written j) : parse? j.render = some j := by
  have steps : 2 * j.compact.length ≤ 2 * j.render.length + 2 := by
    rw [render, String.length_ofList]
    omega
  have whole := written.readBack _ [] steps delimits_nil
  obtain ⟨c, s, split, dark, _⟩ := written.exists_compact
  rw [List.append_nil] at whole
  unfold parse?
  rw [show j.render.toList = j.compact from String.toList_ofList, split, skip_cons dark, ← split,
    whole]
  rfl

end StyleModule.Json
