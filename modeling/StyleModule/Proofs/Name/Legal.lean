import StyleModule.Name.Binding
import StyleModule.Proofs.Name.Fresh

/-!
# Legal names

A name is legal when a program can bind it: it begins with a small letter or an underscore, goes on
with letters and digits, all of them ASCII, and is no keyword. `legal_toIdentifier` says that what a
file name is turned into is legal, unless nothing is left of it; `Legal.fresh` says that a legal name
stays legal when a number has to go behind it, since no keyword has a digit in it.
-/

namespace StyleModule.Name

/-- A character that a legal name begins with. -/
def opensName (c : Char) : Bool := c.isLower || c == '_'

/-- A name that a program can bind. -/
structure Legal (name : String) : Prop where
  shape : ∃ c s, name.toList = c :: s ∧ opensName c = true ∧ ∀ d ∈ s, d.isAlphanum = true
  free : name ∉ keywords

/-! ## Letters and digits -/

theorem toNat_lt_of_isAlphanum {c : Char} (h : c.isAlphanum = true) : c.toNat < 128 := by
  have ranges : (decide (c.val ≥ 'A'.val ∧ c.val ≤ 'Z'.val) ||
      (decide (c.val ≥ 'a'.val) && decide (c.val ≤ 'z'.val)) ||
      (decide (c.val ≥ '0'.val) && decide (c.val ≤ '9'.val))) = true := h
  simp only [Bool.or_eq_true, Bool.and_eq_true, decide_eq_true_eq, ge_iff_le,
    UInt32.le_iff_toNat_le] at ranges
  simp only [Char.toNat]
  grind

/-- What holds of the letters and digits of ASCII holds of all. -/
@[elab_as_elim]
theorem of_isAlphanum {p : Char → Prop}
    (table : ∀ n < 128, (Char.ofNat n).isAlphanum = true → p (Char.ofNat n)) {c : Char}
    (h : c.isAlphanum = true) : p c := by
  have image := table c.toNat (toNat_lt_of_isAlphanum h)
  rw [Char.ofNat_toNat] at image
  exact image h

/-- In small letters, a letter is a small letter and a digit is a digit. -/
theorem toLower_of_isAlphanum {c : Char} (h : c.isAlphanum = true) :
    c.toLower.isLower = true ∨ c.toLower.isDigit = true :=
  of_isAlphanum (by decide) h

/-- A number is written with letters and digits. -/
theorem isAlphanum_of_mem_toDigits {n : Nat} {c : Char} (h : c ∈ Nat.toDigits 10 n) :
    c.isAlphanum = true := by
  have digit := Nat.isDigit_of_mem_toDigits (by decide) (by decide) h
  rw [Char.isAlphanum, digit, Bool.or_true]

/-! ## Keywords -/

theorem keyword_not_underscore : ∀ k ∈ keywords, k.toList.head? ≠ some '_' := by decide

theorem keyword_no_digit : ∀ k ∈ keywords, ∀ c ∈ k.toList, c.isDigit = false := by
  have table : (keywords.all fun k => k.toList.all fun c => !c.isDigit) = true := by decide
  simpa using table

/-- An underscore goes before what begins with a digit or is a keyword. -/
theorem protect_eq (s : List Char) :
    protect s =
      if s.head?.any Char.isDigit = true ∨ String.ofList s ∈ keywords then '_' :: s else s := by
  have keyword : (keywords.map String.toList).contains s = true ↔ String.ofList s ∈ keywords := by
    rw [List.contains_iff_mem, List.mem_map]
    constructor
    · rintro ⟨word, mem, rfl⟩
      rwa [String.ofList_toList]
    · intro mem
      exact ⟨_, mem, String.toList_ofList⟩
  simp only [protect, Bool.or_eq_true, keyword]

/-! ## Identifiers -/

/-- Letters and digits, with a small letter in front where a letter stands there, make a legal name
once they are protected. -/
theorem legal_protect {w : List Char} (alphanum : ∀ c ∈ w, c.isAlphanum = true) (some : w ≠ []) :
    Legal (String.ofList (protect (uncapitalize w))) := by
  obtain ⟨c, s, rfl⟩ := List.exists_cons_of_ne_nil some
  have head := toLower_of_isAlphanum (alphanum c List.mem_cons_self)
  have tail : ∀ d ∈ s, d.isAlphanum = true := fun d hd => alphanum d (List.mem_cons_of_mem c hd)
  rw [uncapitalize, protect_eq]
  split
  next =>
    refine ⟨⟨'_', c.toLower :: s, String.toList_ofList, rfl, ?_⟩, fun h => ?_⟩
    · intro d hd
      rcases List.mem_cons.1 hd with rfl | hd
      · show (c.toLower.isUpper || c.toLower.isLower || c.toLower.isDigit) = true
        rcases head with h | h <;> simp [h]
      · exact tail d hd
    · exact keyword_not_underscore _ h (by rw [String.toList_ofList]; rfl)
  next unprotected =>
    obtain ⟨notDigit, notKeyword⟩ := not_or.1 unprotected
    have lower := head.resolve_right notDigit
    have opens : opensName c.toLower = true := by rw [opensName, lower, Bool.true_or]
    exact ⟨⟨c.toLower, s, String.toList_ofList, opens, tail⟩, notKeyword⟩

/-- What a name is turned into is legal, unless nothing is left of it. -/
theorem legal_toIdentifier {name : String} (some : toIdentifier name ≠ "") :
    Legal (toIdentifier name) := by
  rw [toIdentifier, identifierOf] at some ⊢
  refine legal_protect (fun c hc => (List.mem_filter.1 hc).2) fun none => some ?_
  rw [none]; rfl

/-- The binding name of a file is what its stem is turned into, where that is something. -/
theorem binding_eq_ok_iff {identifier : String → String} {mode : Option String} {file : Path}
    {name : String} :
    binding identifier mode file = .ok name ↔
      identifier (String.ofList (stem mode file)) = name ∧ name ≠ "" := by
  simp only [binding]
  split
  next none => simp only [reduceCtorEq, false_iff, not_and, not_not]; rintro rfl; exact none
  next some =>
    simp only [Except.ok.injEq]
    constructor
    · rintro rfl; exact ⟨rfl, some⟩
    · rintro ⟨rfl, _⟩; rfl

/-- A file has no binding name just where nothing is left of its own to make one from. -/
theorem binding_eq_error_iff {identifier : String → String} {mode : Option String} {file : Path}
    {fault : Fault} :
    binding identifier mode file = .error fault ↔
      identifier (String.ofList (stem mode file)) = "" ∧ fault = .nameless file := by
  simp only [binding]
  split
  next none => simp only [Except.error.injEq, none, true_and]; exact eq_comm
  next some => simp only [reduceCtorEq, some, false_and]

/-- A file's binding name is legal where the usual identifiers are made. -/
theorem legal_of_binding {mode : Option String} {file : Path} {name : String}
    (h : binding toIdentifier mode file = .ok name) : Legal name := by
  obtain ⟨rfl, some⟩ := binding_eq_ok_iff.1 h
  exact legal_toIdentifier some

/-! ## Numbers behind names -/

/-- A legal name with a number behind it is legal. -/
theorem Legal.numbered {name : String} (legal : Legal name) (n : Nat) :
    Legal (NameSet.numbered name n) := by
  obtain ⟨⟨c, s, hs, opens, alphanum⟩, _⟩ := legal
  have text : (NameSet.numbered name n).toList = c :: (s ++ Nat.toDigits 10 n) := by
    rw [NameSet.numbered, String.toList_append, hs, Nat.toString_eq_ofList_toDigits,
      String.toList_ofList, List.cons_append]
  refine ⟨⟨c, s ++ Nat.toDigits 10 n, text, opens, ?_⟩, fun h => ?_⟩
  · intro d hd
    rcases List.mem_append.1 hd with hd | hd
    · exact alphanum d hd
    · exact isAlphanum_of_mem_toDigits hd
  · obtain ⟨d, inside, digit⟩ := NameSet.exists_digit_mem_numbered name n
    rw [keyword_no_digit _ h d inside] at digit
    exact Bool.noConfusion digit

/-- What a set of names answers to a legal name is legal. -/
theorem Legal.fresh {name : String} (legal : Legal name) (set : NameSet) :
    Legal (set.fresh name) := by
  rcases set.fresh_cases name with same | ⟨k, numbered⟩
  · rwa [same]
  · rw [numbered]; exact legal.numbered k

end StyleModule.Name
