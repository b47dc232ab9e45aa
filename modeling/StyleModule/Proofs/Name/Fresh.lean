import Mathlib.Data.List.Nodup
import Mathlib.Data.List.Perm.Subperm
import Mathlib.Order.Bounds.Defs
import StyleModule.Name.Set

/-!
# Fresh names

What a set of names answers when it is asked for a name like `name`: the name itself where it is
free, and otherwise `name` with the least free number behind it that is not below the size of the
set. `fresh_least_free` says so, and `fresh_not_mem` that the answer is never taken.

The search of `firstFree` is bounded by the size of the set. That the bound is never what ends it is
a count (`exists_numbered_not_mem`): were all of its numbers taken, the set would hold as many
numbered names as it has names, and the name without a number besides. So a `Search` that has no
bound ends too (`exists_search`), and the two find the same number (`Search.firstFree_eq`).
-/

namespace StyleModule.NameSet

/-! ## Numbered names -/

/-- The number is written in decimal digits. -/
theorem toList_numbered (name : String) (n : Nat) :
    (numbered name n).toList = name.toList ++ Nat.toDigits 10 n := by
  rw [numbered, String.toList_append, Nat.toString_eq_ofList_toDigits, String.toList_ofList]

/-- Different numbers give different names. -/
theorem numbered_injective (name : String) : Function.Injective (numbered name) := by
  intro m n h
  have digits : Nat.toDigits 10 m = Nat.toDigits 10 n := by
    have h := congrArg String.toList h
    rw [toList_numbered, toList_numbered] at h
    exact List.append_cancel_left h
  calc m = Nat.ofDigitChars 10 (Nat.toDigits 10 m) 0 := Nat.ofDigitChars_ten_toDigits.symm
    _ = n := by rw [digits, Nat.ofDigitChars_ten_toDigits]

/-- A number leaves no name as it was. -/
theorem numbered_ne (name : String) (n : Nat) : numbered name n ≠ name := by
  intro h
  have h := congrArg String.toList h
  rw [toList_numbered, List.append_right_eq_self] at h
  exact Nat.toDigits_ne_nil h

/-- A name with a number behind it has a digit in it. -/
theorem exists_digit_mem_numbered (name : String) (n : Nat) :
    ∃ c ∈ (numbered name n).toList, c.isDigit = true := by
  obtain ⟨c, mem⟩ := List.exists_mem_of_ne_nil _ (Nat.toDigits_ne_nil (n := n) (b := 10))
  refine ⟨c, ?_, Nat.isDigit_of_mem_toDigits (by decide) (by decide) mem⟩
  rw [toList_numbered]
  exact List.mem_append_right _ mem

/-! ## The search -/

variable {set : NameSet} {name : String}

/-- Of as many numbers in a row as a set has names, one makes a free name, if the name without a
number is taken. -/
theorem exists_numbered_not_mem (taken : name ∈ set) (n : Nat) :
    ∃ k, n ≤ k ∧ k < n + set.size ∧ numbered name k ∉ set := by
  by_contra all
  have held : ∀ k, n ≤ k → k < n + set.size → numbered name k ∈ set := by
    intro k hk hlt
    by_contra free
    exact all ⟨k, hk, hlt, free⟩
  -- the name and its numbered forms are one name more than the set has
  let crowd := name :: (List.range set.size).map fun i => numbered name (n + i)
  have distinct : crowd.Nodup := by
    refine List.nodup_cons.2 ⟨?_, List.Nodup.map ?_ List.nodup_range⟩
    · intro h
      obtain ⟨i, _, hi⟩ := List.mem_map.1 h
      exact numbered_ne name _ hi
    · intro i j h
      exact Nat.add_left_cancel (numbered_injective name h)
  have inside : crowd ⊆ set.names := by
    intro other h
    rcases List.mem_cons.1 h with rfl | h
    · exact taken
    · obtain ⟨i, hi, rfl⟩ := List.mem_map.1 h
      have := List.mem_range.1 hi
      exact held _ (by omega) (by omega)
  have count := (distinct.subperm inside).length_le
  simp only [crowd, List.length_cons, List.length_map, List.length_range, size] at count
  omega

/-- A search without a bound: it goes up from the number `n` and ends at the first number `k` that
makes a free name. -/
inductive Search (set : NameSet) (name : String) : (n k : Nat) → Prop
  | found {n : Nat} (free : numbered name n ∉ set) : Search set name n n
  | next {n k : Nat} (taken : numbered name n ∈ set) (rest : Search set name (n + 1) k) :
      Search set name n k

/-- A search that ends has passed over taken names only. -/
theorem Search.least {n k : Nat} (search : Search set name n k) :
    n ≤ k ∧ numbered name k ∉ set ∧ ∀ j, n ≤ j → j < k → numbered name j ∈ set := by
  induction search with
  | found free => exact ⟨Nat.le_refl _, free, fun j hj hk => by omega⟩
  | @next n k taken _ ih =>
    obtain ⟨hk, free, before⟩ := ih
    refine ⟨by omega, free, ?_⟩
    intro j hj hjk
    rcases Nat.eq_or_lt_of_le hj with rfl | hlt
    · exact taken
    · exact before j hlt hjk

/-- A search ends no later than at a number that makes a free name. -/
theorem search_of_not_mem {n i : Nat} (hi : n ≤ i)
    (free : numbered name i ∉ set) : ∃ k, Search set name n k ∧ k ≤ i := by
  obtain ⟨d, rfl⟩ := Nat.exists_eq_add_of_le hi
  induction d generalizing n with
  | zero => exact ⟨n, .found free, Nat.le_refl n⟩
  | succ d ih =>
    by_cases taken : numbered name n ∈ set
    · have there : n + 1 + d = n + (d + 1) := by omega
      rw [← there] at free
      obtain ⟨k, rest, hk⟩ := ih (by omega) free
      exact ⟨k, .next taken rest, by omega⟩
    · exact ⟨n, .found taken, by omega⟩

/-- A search for a name that is taken ends, wherever it begins, after as many numbers at most as the
set has names. -/
theorem exists_search (taken : name ∈ set) (n : Nat) :
    ∃ k, Search set name n k ∧ k < n + set.size := by
  obtain ⟨i, hi, hlt, free⟩ := exists_numbered_not_mem taken n
  obtain ⟨k, search, hk⟩ := search_of_not_mem hi free
  exact ⟨k, search, by omega⟩

/-- With enough tries the search that counts them ends where the search without a bound does. -/
theorem Search.firstFree_eq {n k tries : Nat}
    (search : Search set name n k) (enough : k < n + tries) :
    firstFree set name tries n = numbered name k := by
  induction tries generalizing n with
  | zero =>
    have reached := search.least.1
    omega
  | succ tries ih =>
    cases search with
    | found free => rw [firstFree, if_neg free]
    | next taken rest =>
      rw [firstFree, if_pos taken]
      exact ih rest (by omega)

/-! ## The answer -/

/-- A name that is free is its own answer. -/
theorem fresh_of_not_mem (free : name ∉ set) :
    set.fresh name = name := if_neg free

/-- A name that is taken is answered with the number that the search from the size of the set on
finds. -/
theorem fresh_eq_numbered (taken : name ∈ set) :
    ∃ k, Search set name set.size k ∧ k < set.size + set.size ∧
      set.fresh name = numbered name k := by
  obtain ⟨k, search, bound⟩ := exists_search taken set.size
  refine ⟨k, search, bound, ?_⟩
  rw [fresh, if_pos taken, search.firstFree_eq bound]

/-- The answer is a name that the set does not hold. -/
theorem fresh_not_mem (set : NameSet) (name : String) : set.fresh name ∉ set := by
  by_cases taken : name ∈ set
  · obtain ⟨k, search, _, found⟩ := fresh_eq_numbered taken
    rw [found]
    exact search.least.2.1
  · rwa [fresh_of_not_mem taken]

/-- The answer is the name asked for, as it is or with a number. -/
theorem fresh_cases (set : NameSet) (name : String) :
    set.fresh name = name ∨ ∃ k, set.fresh name = numbered name k := by
  by_cases taken : name ∈ set
  · obtain ⟨k, _, _, found⟩ := fresh_eq_numbered taken
    exact .inr ⟨k, found⟩
  · exact .inl (fresh_of_not_mem taken)

/-- The answer is free. It is the name asked for just where that is free, and otherwise that name
with a number in decimal digits: the search that begins at the size of the set ends, and the number
is the least from there on that makes a free name, and less than twice the size. -/
theorem fresh_least_free (set : NameSet) (name : String) :
    set.fresh name ∉ set ∧ (set.fresh name = name ↔ name ∉ set) ∧
      (name ∈ set → ∃ k, Search set name set.size k ∧
        (set.fresh name).toList = name.toList ++ Nat.toDigits 10 k ∧
        IsLeast {n | set.size ≤ n ∧ numbered name n ∉ set} k ∧ k ≤ 2 * set.size - 1) := by
  refine ⟨fresh_not_mem set name, ⟨?_, fresh_of_not_mem⟩, ?_⟩
  · intro same
    rw [← same]
    exact fresh_not_mem set name
  · intro taken
    obtain ⟨k, search, bound, found⟩ := fresh_eq_numbered taken
    obtain ⟨hk, free, before⟩ := search.least
    refine ⟨k, search, ?_, ⟨⟨hk, free⟩, ?_⟩, by omega⟩
    · rw [found, toList_numbered]
    · rintro n ⟨hn, other⟩
      by_contra h
      exact other (before n hn (by omega))

/-- The set with the answer handed out has it in front of all other names. -/
theorem names_insert_fresh (set : NameSet) (name : String) :
    (set.insert (set.fresh name)).names = set.fresh name :: set.names := by
  have free : set.fresh name ∉ set.names := fresh_not_mem set name
  rw [insert, dif_neg free]

/-- Once the answer is handed out, the name asked for is taken: by the answer, or from before. -/
theorem mem_insert_fresh (set : NameSet) (name : String) :
    name ∈ set.insert (set.fresh name) := by
  by_cases taken : name ∈ set
  · exact mem_insert.2 (.inr taken)
  · rw [fresh_of_not_mem taken]
    exact mem_insert.2 (.inl rfl)

end StyleModule.NameSet
