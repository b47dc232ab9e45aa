/-!
# Finding a word in a text

Every search answers with the pieces around the word, never with an offset: what follows the word at
the head of a text (`after?`), and the text before and after its first occurrence (`cut?`). The
pieces and the word put together again are the text, which `after?_eq_some_iff` and `cut?_append`
state.
-/

namespace StyleModule.Text

/-- What follows `word` at the head of the text, when the text begins with it. -/
def after? : List Char → List Char → Option (List Char)
  | [], s => some s
  | _ :: _, [] => none
  | w :: word, c :: s => if w = c then after? word s else none

theorem after?_eq_some_iff {word s rest : List Char} :
    after? word s = some rest ↔ s = word ++ rest := by
  induction word generalizing s with
  | nil => simp [after?, eq_comm]
  | cons w word ih =>
    cases s with
    | nil => simp [after?]
    | cons c s =>
      by_cases h : w = c
      · simp [after?, h, ih]
      · simp [after?, h, Ne.symm h]

/-- Letter case is set aside: as `after?`, with every ASCII capital of the text read as its small
letter. The word is given in small letters. -/
def afterAnyCase? : List Char → List Char → Option (List Char)
  | [], s => some s
  | _ :: _, [] => none
  | w :: word, c :: s => if w = c.toLower then afterAnyCase? word s else none

/-- The text before the first occurrence of `word`, and the text after it. -/
def cut? (word : List Char) : List Char → Option (List Char × List Char)
  | [] => (after? word []).map ([], ·)
  | c :: s =>
    match after? word (c :: s) with
    | some rest => some ([], rest)
    | none => (cut? word s).map fun (before, rest) => (c :: before, rest)

/-- The word and the pieces around it are the text. -/
theorem cut?_append {word s before rest : List Char} (h : cut? word s = some (before, rest)) :
    s = before ++ word ++ rest := by
  induction s generalizing before with
  | nil =>
    simp only [cut?, Option.map_eq_some_iff, Prod.mk.injEq] at h
    obtain ⟨r, hr, rfl, rfl⟩ := h
    simpa using after?_eq_some_iff.1 hr
  | cons c s ih =>
    simp only [cut?] at h
    split at h
    · next r hr =>
      simp only [Option.some.injEq, Prod.mk.injEq] at h
      obtain ⟨rfl, rfl⟩ := h
      simpa using after?_eq_some_iff.1 hr
    · simp only [Option.map_eq_some_iff, Prod.mk.injEq] at h
      obtain ⟨⟨b, r⟩, hb, rfl, rfl⟩ := h
      simp [ih hb]

/-- Does the word occur in the text? -/
def contains (word s : List Char) : Bool := (cut? word s).isSome

theorem contains_iff_infix {word s : List Char} : contains word s = true ↔ word <:+: s := by
  constructor
  · intro h
    obtain ⟨⟨before, rest⟩, hc⟩ := Option.isSome_iff_exists.1 h
    exact ⟨before, rest, (cut?_append hc).symm⟩
  · rintro ⟨before, rest, rfl⟩
    induction before with
    | nil =>
      have h : after? word (word ++ rest) = some rest := after?_eq_some_iff.2 rfl
      cases hs : word ++ rest with
      | nil => simp_all [contains, cut?]
      | cons c s => rw [hs] at h; simp [contains, cut?, hs, h]
    | cons c before ih =>
      simp only [contains, List.cons_append] at ih ⊢
      simp only [cut?]
      split
      · rfl
      · rwa [Option.isSome_map]

/-- The text without the first occurrence of `word`; a text that lacks it is left alone. -/
def removeFirst (word s : List Char) : List Char :=
  match cut? word s with
  | some (before, rest) => before ++ rest
  | none => s

end StyleModule.Text
