import StyleModule.Proofs.Text.Squeeze

/-!
# Joined parts

What stands in parts that were joined with a text between them, and how much of it.
-/

namespace StyleModule.Text

theorem mem_intercalate {s : List Char} {parts : List (List Char)} {c : Char}
    (h : c ∈ s.intercalate parts) : c ∈ s ∨ ∃ part ∈ parts, c ∈ part := by
  induction parts with
  | nil => cases h
  | cons part parts ih =>
    cases parts with
    | nil => exact .inr ⟨part, List.mem_cons_self, by simpa using h⟩
    | cons next parts =>
      rw [List.intercalate_cons_cons] at h
      rcases List.mem_append.1 h with h | h
      · exact (List.mem_append.1 h).symm.imp_right fun mem => ⟨part, List.mem_cons_self, mem⟩
      · exact (ih h).imp_right fun ⟨other, mem, hc⟩ => ⟨other, List.mem_cons_of_mem _ mem, hc⟩

/-- Each part is a piece of the whole. -/
theorem infix_intercalate (s : List Char) {parts : List (List Char)} {part : List Char}
    (mem : part ∈ parts) : part <:+: s.intercalate parts := by
  induction parts with
  | nil => cases mem
  | cons first parts ih =>
    cases parts with
    | nil =>
      rw [List.mem_singleton.1 mem]
      exact ⟨[], [], by simp⟩
    | cons next parts =>
      rw [List.intercalate_cons_cons]
      rcases List.mem_cons.1 mem with rfl | mem
      · exact ⟨[], s ++ s.intercalate (next :: parts), by simp⟩
      · exact (ih mem).trans (List.suffix_append ..).isInfix

theorem dark_intercalate (s : List Char) (parts : List (List Char)) :
    dark (s.intercalate parts) = (dark s).intercalate (parts.map dark) := by
  induction parts with
  | nil => rfl
  | cons part parts ih =>
    cases parts with
    | nil => simp
    | cons next parts =>
      rw [List.intercalate_cons_cons, dark_append, dark_append, ih]
      exact List.intercalate_cons_cons.symm

/-- Where each part is longer in one form than in another, by the same, the whole is longer by so
much for each part. -/
theorem length_intercalate_map (s : List Char) {parts : List (List Char)}
    {long short : List Char → List Char} {n : Nat}
    (longer : ∀ part ∈ parts, (long part).length = (short part).length + n) :
    (s.intercalate (parts.map long)).length =
      (s.intercalate (parts.map short)).length + parts.length * n := by
  induction parts with
  | nil => simp
  | cons part parts ih =>
    have here := longer part List.mem_cons_self
    have there := ih fun other mem => longer other (List.mem_cons_of_mem _ mem)
    cases parts with
    | nil => simpa using here
    | cons next parts =>
      have more : (part :: next :: parts).length * n = (next :: parts).length * n + n :=
        Nat.succ_mul ..
      simp only [List.map_cons, List.intercalate_cons_cons, List.length_append, more] at there ⊢
      omega

end StyleModule.Text
