import StyleModule.Css.Scope
import StyleModule.Proofs.Text.Join

/-!
# What scoping writes into a prelude

Beside the scope and what stood there, a scoped prelude holds a few signs only (`mem_scopePrelude`).
A list in which no host element and no slotted content is spoken of keeps all that stood in it, and
each of its selectors gets the scope's own class, so that the selectors are counted by what is
written (`length_dark_scopePrelude`).
-/

namespace StyleModule.Css

open Text (dark)

/-! ## The parts of a list -/

theorem splitList_ne_nil (depth : Nat) (s : List Char) : splitList depth s ≠ [] := by
  cases s with
  | nil => exact List.cons_ne_nil _ _
  | cons c s =>
    rw [splitList]
    split
    · exact List.cons_ne_nil _ _
    · intro empty
      exact splitList_ne_nil _ s (List.modifyHead_eq_nil_iff.1 empty)

/-- The parts with the commas between them are the list. -/
theorem intercalate_splitList (depth : Nat) (s : List Char) :
    [','].intercalate (splitList depth s) = s := by
  induction s generalizing depth with
  | nil => rfl
  | cons c s ih =>
    rw [splitList]
    split
    next comma =>
      obtain ⟨first, others, parts⟩ := List.exists_cons_of_ne_nil (splitList_ne_nil 0 s)
      rw [parts, List.intercalate_cons_cons, ← parts, ih, comma.2]
      rfl
    next =>
      have whole := ih (bracketsAfter depth c)
      obtain ⟨first, others, parts⟩ :=
        List.exists_cons_of_ne_nil (splitList_ne_nil (bracketsAfter depth c) s)
      rw [parts] at whole ⊢
      rw [List.modifyHead_cons]
      cases others with
      | nil => simpa using whole
      | cons next others =>
        rw [List.intercalate_cons_cons] at whole ⊢
        rw [← whole]
        rfl

theorem infix_of_mem_splitList {s part : List Char} (mem : part ∈ splitList 0 s) : part <:+: s := by
  have piece := Text.infix_intercalate [','] mem
  rwa [intercalate_splitList] at piece

/-! ## Signs -/

/-- The signs that scoping writes beside a scope. -/
def scopingSigns : List Char := ['/', '*', '!', '@', ',', '>', ' ', '.', '-', 'h', 's']

section Signs

variable {scope s : List Char} {c : Char}

theorem mem_replaceSlotted {slot : List Char} (h : c ∈ replaceSlotted slot s) :
    c ∈ slot ∨ c ∈ " > ".toList ∨ c ∈ s := by
  fun_induction replaceSlotted slot s with
  | case1 => exact .inr (.inr h)
  | case2 s before inner rest found ih =>
    have core : c ∈ Text.trim inner → c ∈ inner := fun mem => (Text.infix_trim inner).subset mem
    rw [nextSlotted_append found]
    simp only [List.mem_append, List.mem_cons] at h ⊢
    grind

/-- A use of the host mark becomes the host class, with what was its argument. -/
theorem mem_hostUse {host : List Char}
    (h : c ∈ (hostUse s).1.text host ∨ c ∈ (hostUse s).2) :
    c ∈ host ∨ c ∈ hostMark ∨ c ∈ s := by
  revert h
  fun_cases hostUse s with
  | case1 => exact Or.inr
  | case2 s argument rest closed =>
    have core : c ∈ Text.trim argument → c ∈ argument :=
      fun mem => (Text.infix_trim argument).subset mem
    rw [closeArgument_append closed]
    simp only [HostUse.text, List.mem_append, List.mem_cons]
    grind
  | case3 => exact fun h => h.imp_right .inr
  | case4 => exact fun h => h.imp_right .inr

theorem mem_replaceHost {host : List Char} (h : c ∈ replaceHost host s) : c ∈ host ∨ c ∈ s := by
  fun_induction replaceHost host s with
  | case1 => exact .inr h
  | case2 s before after found ih =>
    have used : c ∈ (hostUse after).1.text host ∨ c ∈ (hostUse after).2 →
        c ∈ host ∨ c ∈ hostMark ∨ c ∈ after := mem_hostUse
    rw [Text.cut?_append found]
    simp only [List.mem_append] at h ⊢
    grind

/-- A compound keeps its characters, and gets those of the class. -/
theorem addClass_perm (name : List Char) (depth : Nat) (s : List Char) :
    (addClass name depth s).Perm (name ++ s) := by
  induction s generalizing depth with
  | nil => rw [addClass, List.append_nil]
  | cons c s ih =>
    rw [addClass]
    split
    · exact .refl _
    · exact ((ih _).cons c).trans List.perm_middle.symm

theorem scopeUnslotted_eq (scope s : List Char) :
    scopeUnslotted scope s =
      if Text.contains hostMark s && Text.contains (hostClass scope)
          (lastCompound (replaceHost (hostClass scope) s)).2 then
        replaceHost (hostClass scope) s
      else
        (lastCompound (replaceHost (hostClass scope) s)).1 ++
          addClass (ownClass scope) 0 (lastCompound (replaceHost (hostClass scope) s)).2 := rfl

theorem mem_scopeUnslotted (h : c ∈ scopeUnslotted scope s) :
    c ∈ hostClass scope ∨ c ∈ ownClass scope ∨ c ∈ s := by
  have whole := lastCompound_append (replaceHost (hostClass scope) s)
  have kept : c ∈ replaceHost (hostClass scope) s →
      c ∈ hostClass scope ∨ c ∈ ownClass scope ∨ c ∈ s :=
    fun mem => (mem_replaceHost mem).imp_right .inr
  rw [scopeUnslotted_eq] at h
  split at h
  · exact kept h
  · rcases List.mem_append.1 h with mem | mem
    · exact kept (whole ▸ List.mem_append_left _ mem)
    · rcases List.mem_append.1 ((addClass_perm ..).mem_iff.1 mem) with mem | mem
      · exact .inr (.inl mem)
      · exact kept (whole ▸ List.mem_append_right _ mem)

/-- The classes of a scope are written with the scope and signs. -/
theorem mem_class {signs : List Char} (few : signs ⊆ scopingSigns)
    (h : c ∈ '.' :: (scope ++ signs)) : c ∈ scope ∨ c ∈ scopingSigns := by
  rcases List.mem_cons.1 h with rfl | h
  · exact .inr (by decide)
  · exact (List.mem_append.1 h).imp_right (few ·)

theorem mem_scopeComplex (h : c ∈ scopeComplex scope s) :
    c ∈ scope ∨ c ∈ scopingSigns ∨ c ∈ s := by
  have own : c ∈ ownClass scope → c ∈ scope ∨ c ∈ scopingSigns := by
    intro mem
    exact mem_class (List.nil_subset _) (by rwa [List.append_nil])
  have host : c ∈ hostClass scope → c ∈ scope ∨ c ∈ scopingSigns := mem_class (by decide)
  have slot : c ∈ slotClass scope → c ∈ scope ∨ c ∈ scopingSigns := mem_class (by decide)
  have child : c ∈ " > ".toList → c ∈ scopingSigns :=
    fun mem => (by decide : " > ".toList ⊆ scopingSigns) mem
  unfold scopeComplex at h
  split at h
  · have := mem_replaceSlotted h
    grind
  · have := mem_scopeUnslotted h
    grind

theorem mem_scopeList (h : c ∈ scopeList scope s) : c ∈ scope ∨ c ∈ scopingSigns ∨ c ∈ s := by
  rcases Text.mem_intercalate h with mem | ⟨written, mem, here⟩
  · exact .inr (.inl ((by decide : ", ".toList ⊆ scopingSigns) mem))
  · obtain ⟨part, listed, rfl⟩ := List.mem_map.1 mem
    refine (mem_scopeComplex here).imp_right (Or.imp_right fun inside => ?_)
    exact ((Text.infix_trim part).trans (infix_of_mem_splitList listed)).subset inside

/-- What is new in a scoped prelude is the scope and a few signs. -/
theorem mem_scopePrelude {keep : Bool} (h : c ∈ scopePrelude scope keep s) :
    c ∈ scope ∨ c ∈ scopingSigns ∨ c ∈ s := by
  have core : c ∈ Text.trim s → c ∈ s := fun mem => (Text.infix_trim s).subset mem
  simp only [scopePrelude, List.mem_append] at h
  rcases h with ((head | comment) | list) | tail
  · exact .inr (.inr ((List.takeWhile_prefix _).subset head))
  · split at comment
    · rcases List.mem_append.1 comment with comment | sign
      · rcases List.mem_append.1 comment with sign | inside
        · exact .inr (.inl ((by decide : "/*!@".toList ⊆ scopingSigns) sign))
        · exact .inr (.inr (core inside))
      · exact .inr (.inl ((by decide : "*/".toList ⊆ scopingSigns) sign))
    · cases comment
  · exact (mem_scopeList list).imp_right (Or.imp_right core)
  · refine .inr (.inr ?_)
    rw [← Text.head_core_tail s]
    exact List.mem_append_right _ tail

end Signs

/-! ## Counting -/

/-- Neither a host element nor slotted content is spoken of. -/
def Markless (s : List Char) : Prop :=
  Text.contains hostMark s = false ∧ Text.contains slottedMark s = false

section Counting

variable {s t : List Char}

theorem contains_eq_false_of_piece {word : List Char} (absent : Text.contains word t = false)
    (piece : s <:+: t) : Text.contains word s = false := by
  rw [← Bool.not_eq_true, Text.contains_iff_infix] at absent ⊢
  exact fun occurs => absent (occurs.trans piece)

theorem Markless.of_piece (markless : Markless t) (piece : s <:+: t) : Markless s :=
  ⟨contains_eq_false_of_piece markless.1 piece, contains_eq_false_of_piece markless.2 piece⟩

theorem replaceHost_eq_self {host : List Char} (absent : Text.contains hostMark s = false) :
    replaceHost host s = s := by
  rw [replaceHost]
  split
  next => rfl
  next found =>
    rw [Text.contains, found] at absent
    cases absent

/-- A selector without marks gets the scope's own class, and keeps what it had. -/
theorem scopeComplex_perm (scope : List Char) (markless : Markless s) :
    (scopeComplex scope s).Perm (ownClass scope ++ s) := by
  rw [scopeComplex, markless.2, if_neg Bool.false_ne_true, scopeUnslotted_eq, markless.1,
    Bool.false_and, if_neg Bool.false_ne_true, replaceHost_eq_self markless.1]
  have swap : ((lastCompound s).1 ++ (ownClass scope ++ (lastCompound s).2)).Perm
      (ownClass scope ++ ((lastCompound s).1 ++ (lastCompound s).2)) := by
    rw [← List.append_assoc, ← List.append_assoc]
    exact List.perm_append_comm.append_right _
  rw [lastCompound_append] at swap
  exact ((addClass_perm _ _ _).append_left _).trans swap

theorem length_dark_scopeList (scope : List Char) (markless : Markless s) :
    (dark (scopeList scope s)).length =
      (dark s).length + (splitList 0 s).length * ((dark scope).length + 1) := by
  have longer : ∀ part ∈ splitList 0 s,
      (dark (scopeComplex scope (Text.trim part))).length =
        (dark part).length + ((dark scope).length + 1) := by
    intro part mem
    have inside : Text.trim part <:+: s :=
      (Text.infix_trim part).trans (infix_of_mem_splitList mem)
    have same := (Text.dark_perm (scopeComplex_perm scope (markless.of_piece inside))).length_eq
    rw [Text.dark_append, Text.dark_trim, List.length_append] at same
    have own : (dark (ownClass scope)).length = (dark scope).length + 1 := rfl
    omega
  calc (dark (scopeList scope s)).length
    _ = ([','].intercalate ((splitList 0 s).map
          fun part => dark (scopeComplex scope (Text.trim part)))).length := by
      rw [scopeList, Text.dark_intercalate, List.map_map]
      rfl
    _ = ([','].intercalate ((splitList 0 s).map dark)).length +
          (splitList 0 s).length * ((dark scope).length + 1) :=
      Text.length_intercalate_map [','] longer
    _ = _ := by
      have whole := congrArg dark (intercalate_splitList 0 s)
      rw [Text.dark_intercalate] at whole
      rw [← whole]
      rfl

/-- A prelude without marks keeps its characters, gets the scope's own class for each selector, and
is written once more where it is kept in a comment. -/
theorem length_dark_scopePrelude (scope : List Char) (markless : Markless s) (keep : Bool) :
    (dark (scopePrelude scope keep s)).length =
      (dark s).length + (if keep then (dark s).length + 6 else 0) +
        (splitList 0 (Text.trim s)).length * ((dark scope).length + 1) := by
  have head : dark (Text.blankHead s) = [] := Text.dark_of_allBlank (Text.blankHead_blank s)
  have tail : dark (Text.blankTail s) = [] := Text.dark_of_allBlank (Text.blankTail_blank s)
  have list := length_dark_scopeList scope (markless.of_piece (Text.infix_trim s))
  rw [Text.dark_trim] at list
  rw [scopePrelude, Text.dark_append, Text.dark_append, Text.dark_append, head, tail,
    List.nil_append, List.append_nil, List.length_append, list]
  cases keep with
  | false =>
    show 0 + _ = _
    rw [if_neg Bool.false_ne_true]
    omega
  | true =>
    have kept : dark (keepComment (Text.trim s)) = "/*!@".toList ++ dark s ++ "*/".toList := by
      show dark ("/*!@".toList ++ Text.trim s ++ "*/".toList) = _
      rw [Text.dark_append, Text.dark_append, Text.dark_trim]
      rfl
    have length : ("/*!@".toList ++ dark s ++ "*/".toList).length = (dark s).length + 6 := by
      rw [List.length_append, List.length_append]
      show 4 + _ + 2 = _
      omega
    rw [if_pos rfl, if_pos rfl, kept, length]
    omega

end Counting

end StyleModule.Css
