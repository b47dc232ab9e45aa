import StyleModule.Text.Search

/-!
# Taking a word out of a text

The first occurrence of a word is taken out behind any text in which the word does not begin, also
not with what follows that text (`removeFirst_append`), and is the word itself where the word comes
first (`removeFirst_word`).
-/

namespace StyleModule.Text

theorem after?_eq_none {word s : List Char} (absent : ¬ word <+: s) : after? word s = none := by
  cases found : after? word s with
  | none => rfl
  | some rest => exact absurd ⟨rest, (after?_eq_some_iff.1 found).symm⟩ absent

theorem removeFirst_cons {word : List Char} {c : Char} {s : List Char}
    (absent : ¬ word <+: c :: s) : removeFirst word (c :: s) = c :: removeFirst word s := by
  rw [removeFirst, removeFirst, cut?, after?_eq_none absent]
  cases cut? word s with
  | none => rfl
  | some found => rfl

/-- A word at the head of a text is taken out there. -/
theorem removeFirst_word (word s : List Char) : removeFirst word (word ++ s) = s := by
  have found : after? word (word ++ s) = some s := after?_eq_some_iff.2 rfl
  cases whole : word ++ s with
  | nil =>
    obtain ⟨rfl, rfl⟩ := List.append_eq_nil_iff.1 whole
    rfl
  | cons c rest =>
    rw [whole] at found
    rw [removeFirst, cut?, found]
    rfl

/-- Behind a text in which it does not begin, a word is taken out as if that text were not there. -/
theorem removeFirst_append {word a s : List Char}
    (absent : ∀ b c t, a = b ++ c :: t → ¬ word <+: c :: (t ++ s)) :
    removeFirst word (a ++ s) = a ++ removeFirst word s := by
  induction a with
  | nil => rfl
  | cons c a ih =>
    have later : ∀ b d t, a = b ++ d :: t → ¬ word <+: d :: (t ++ s) := by
      rintro b d t rfl
      exact absent (c :: b) d t rfl
    rw [List.cons_append, removeFirst_cons (absent [] c a rfl), ih later, List.cons_append]

/-- No word begins in a text that lacks its first character. -/
theorem removeFirst_append_of_not_mem {first : Char} {word a : List Char} (lacks : first ∉ a)
    (s : List Char) :
    removeFirst (first :: word) (a ++ s) = a ++ removeFirst (first :: word) s := by
  refine removeFirst_append ?_
  rintro b c t rfl ⟨rest, split⟩
  obtain ⟨rfl, _⟩ := List.cons.inj split
  exact lacks (by simp)

/-! ## One of two places -/

/-- A word at the head of a text and once more behind `between`. -/
theorem removed_behind_eq_iff {word between rest rest' : List Char}
    (same : word ++ rest = between ++ (word ++ rest')) :
    between ++ rest' = rest ↔ word ++ between = between ++ word := by
  calc between ++ rest' = rest
    _ ↔ word ++ (between ++ rest') = word ++ rest := (List.append_right_inj word).symm
    _ ↔ (word ++ between) ++ rest' = (between ++ word) ++ rest' := by
      rw [same, List.append_assoc, List.append_assoc]
    _ ↔ word ++ between = between ++ word := List.append_left_inj rest'

/-- What lies between two places of which one is behind the other is known. -/
theorem exists_between_iff {word front m : List Char} :
    (∃ between, (front = front ++ m ++ between ∨ front ++ m = front ++ between) ∧
      word ++ between = between ++ word) ↔ word ++ m = m ++ word := by
  constructor
  · rintro ⟨between, there | there, alike⟩
    · rw [List.append_assoc, List.self_eq_append_right, List.append_eq_nil_iff] at there
      rw [there.1, List.append_nil, List.nil_append]
    · rwa [List.append_cancel_left there]
  · exact fun alike => ⟨m, .inr rfl, alike⟩

/-- A word at two places of one text: what is left without the one is what is left without the
other just where the word and what lies between the places can change places. -/
theorem removed_eq_iff {word front rest front' rest' : List Char}
    (same : front ++ (word ++ rest) = front' ++ (word ++ rest')) :
    front' ++ rest' = front ++ rest ↔
      ∃ between, (front = front' ++ between ∨ front' = front ++ between) ∧
        word ++ between = between ++ word := by
  rcases List.append_eq_append_iff.1 same with ⟨m, rfl, behind⟩ | ⟨m, rfl, behind⟩
  · rw [List.append_assoc, List.append_right_inj, removed_behind_eq_iff behind,
      exists_between_iff]
  · rw [List.append_assoc, List.append_right_inj, eq_comm, removed_behind_eq_iff behind]
    exact exists_between_iff.symm.trans
      (exists_congr fun between => and_congr_left fun _ => or_comm)

end StyleModule.Text
