import StyleModule.Json.Reader

/-!
# Reading a written string

`readBody_escape`: what was written between quotes is read up to the closing quote and no further,
whatever follows it. Together with `unescape?_escape` it says that a quoted text is read back.
-/

namespace StyleModule.Json

private theorem readBody_escapeChar (c : Char) (s : List Char) :
    readBody (escapeChar c ++ s) =
      (readBody s).map fun (body, rest) => (escapeChar c ++ body, rest) := by
  unfold escapeChar
  split; · subst c; rfl
  split; · subst c; rfl
  split; · subst c; rfl
  split; · subst c; rfl
  split; · subst c; rfl
  split; · subst c; rfl
  split; · subst c; rfl
  split
  · next h =>
    have unit : (hexUnit? '0' '0' (hexDigit (c.toNat / 16)) (hexDigit (c.toNat % 16))).isSome := by
      rw [hexUnit?_control c.toNat h]; rfl
    simp only [List.cons_append, List.nil_append, readBody, unit, if_true]
  · next hq hb _ _ _ _ _ h =>
    simp only [List.cons_append, List.nil_append]
    rw [readBody.eq_5 c s (by simp_all) (by simp_all) (by simp_all), if_neg (by simp [hb, h])]

/-- What was written between quotes is read up to the closing quote. -/
theorem readBody_escape (s rest : List Char) :
    readBody (escape s ++ '"' :: rest) = some (escape s, rest) := by
  induction s with
  | nil => rfl
  | cons c s ih =>
    have cons : escape (c :: s) = escapeChar c ++ escape s := rfl
    rw [cons, List.append_assoc, readBody_escapeChar, ih]
    rfl

private theorem le_of_mem_escapeChar {c d : Char} (h : d ∈ escapeChar c) : 32 ≤ d.toNat := by
  by_cases ascii : c.toNat < 128
  · have table : ∀ n < 128,
        ((escapeChar (Char.ofNat n)).all fun d => decide (32 ≤ d.toNat)) = true := by decide
    have written := table c.toNat ascii
    rw [Char.ofNat_toNat, List.all_eq_true] at written
    exact of_decide_eq_true (written d h)
  · have other : ∀ e : Char, e.toNat < 128 → c ≠ e := by
      rintro e he rfl
      exact ascii he
    rw [escapeChar, if_neg (other _ (by decide)), if_neg (other _ (by decide)),
      if_neg (other _ (by decide)), if_neg (other _ (by decide)), if_neg (other _ (by decide)),
      if_neg (other _ (by decide)), if_neg (other _ (by decide)), if_neg (by omega)] at h
    rw [List.mem_singleton.1 h]
    omega

/-- No control character stands in what is written between quotes. -/
theorem not_mem_escape_of_lt {c : Char} (control : c.toNat < 32) {s : List Char} :
    c ∉ escape s := by
  intro h
  obtain ⟨d, _, h⟩ := List.mem_flatMap.1 h
  have := le_of_mem_escapeChar h
  omega

/-- What follows a string is shorter than the text that the string begins. -/
theorem readBody_length_le {s body rest : List Char} (h : readBody s = some (body, rest)) :
    rest.length ≤ s.length := by
  fun_induction readBody s generalizing body with
  | case1 => cases h
  | case2 s => cases h; exact Nat.le_succ _
  | case3 a b c d s _ ih =>
    obtain ⟨⟨body', rest'⟩, hr, heq⟩ := Option.map_eq_some_iff.1 h
    cases heq
    have := ih hr
    simp only [List.length_cons]
    omega
  | case4 => cases h
  | case5 c s _ _ ih =>
    obtain ⟨⟨body', rest'⟩, hr, heq⟩ := Option.map_eq_some_iff.1 h
    cases heq
    have := ih hr
    simp only [List.length_cons]
    omega
  | case6 => cases h
  | case7 => cases h
  | case8 c s _ _ _ _ ih =>
    obtain ⟨⟨body', rest'⟩, hr, heq⟩ := Option.map_eq_some_iff.1 h
    cases heq
    have := ih hr
    simp only [List.length_cons]
    omega

end StyleModule.Json
