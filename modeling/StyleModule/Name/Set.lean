/-!
# Sets of names

The names that one run has handed out, each once. A name that is taken already is made fresh by a
number behind it: the least free one that is not below the size of the set. The search need not look
at more numbers than the set has names, since different numbers give different names and the name
without a number is one of the names taken.
-/

namespace StyleModule

/-- Names, each of them once, newest first. -/
structure NameSet where
  names : List String
  nodup : names.Nodup

namespace NameSet

/-- The set that holds one name. -/
def singleton (name : String) : NameSet := ⟨[name], by simp⟩

/-- The set that holds no name. -/
def empty : NameSet := ⟨[], List.nodup_nil⟩

instance : Membership String NameSet := ⟨fun set name => name ∈ set.names⟩

instance (name : String) (set : NameSet) : Decidable (name ∈ set) :=
  inferInstanceAs (Decidable (name ∈ set.names))

/-- How many names the set holds. -/
def size (set : NameSet) : Nat := set.names.length

/-- The set with one more name; a name it holds already changes nothing. -/
def insert (set : NameSet) (name : String) : NameSet :=
  if h : name ∈ set.names then set else ⟨name :: set.names, List.nodup_cons.2 ⟨h, set.nodup⟩⟩

theorem mem_insert {set : NameSet} {name other : String} :
    other ∈ set.insert name ↔ other = name ∨ other ∈ set := by
  simp only [insert]
  split
  · next h =>
    refine ⟨.inr, ?_⟩
    rintro (rfl | h')
    · exact h
    · exact h'
  · exact List.mem_cons

/-- A set that holds the given names. -/
def ofList (names : List String) : NameSet := names.foldl insert empty

/-- A name with a number behind it. -/
def numbered (name : String) (n : Nat) : String := name ++ toString n

/-- The name with the first free number from `n` on, if one of the `tries` numbers there is free. -/
def firstFree (set : NameSet) (name : String) : (tries n : Nat) → String
  | 0, n => numbered name n
  | tries + 1, n =>
    if numbered name n ∈ set then firstFree set name tries (n + 1) else numbered name n

/-- A name that is not in the set: the name itself, or else the name with a number. -/
def fresh (set : NameSet) (name : String) : String :=
  if name ∈ set then firstFree set name set.size set.size else name

end NameSet

end StyleModule
