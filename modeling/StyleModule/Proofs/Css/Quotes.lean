import StyleModule.Proofs.Css.Classes
import StyleModule.Proofs.Css.Live

/-!
# Quotes in a scoped list

Scoping moves no quote, drops none and, where the scope has none, writes none
(`quotesOf_scopeList`). So a string is open behind a scoped list just where one is open behind the
list, though a string may be cut into parts and other text put into it.
-/

namespace StyleModule.Css

theorem quotesOf_append (a b : List Char) : quotesOf (a ++ b) = quotesOf a ++ quotesOf b :=
  List.filter_append ..

theorem quotesOf_eq_nil {s : List Char} (none : ∀ c ∈ s, isQuote c = false) : quotesOf s = [] :=
  List.filter_eq_nil_iff.2 fun c mem => Bool.eq_false_iff.1 (none c mem)

theorem quotesOf_of_allBlank {blanks : List Char} (blank : Text.allBlank blanks = true) :
    quotesOf blanks = [] := by
  refine quotesOf_eq_nil fun c mem => ?_
  have here := List.all_eq_true.1 blank c mem
  rw [isQuote, beq_false_of_ne (Text.ne_of_isBlank here rfl),
    beq_false_of_ne (Text.ne_of_isBlank here rfl), Bool.or_false]

theorem quotesOf_trim (s : List Char) : quotesOf (Text.trim s) = quotesOf s := by
  rw [← congrArg quotesOf (Text.head_core_tail s), quotesOf_append, quotesOf_append,
    quotesOf_of_allBlank (Text.blankHead_blank s), quotesOf_of_allBlank (Text.blankTail_blank s), List.nil_append,
    List.append_nil]

section Scoping

variable {scope s : List Char}

theorem quotesOf_replaceSlotted {slot : List Char} (none : quotesOf slot = []) (s : List Char) :
    quotesOf (replaceSlotted slot s) = quotesOf s := by
  fun_induction replaceSlotted slot s with
  | case1 => rfl
  | case2 s before inner rest found ih =>
    have child : quotesOf " > ".toList = [] := rfl
    have mark : quotesOf slottedMark = [] := rfl
    have closing : quotesOf (')' :: rest) = quotesOf rest := rfl
    rw [nextSlotted_append found]
    simp only [quotesOf_append, quotesOf_trim, none, child, mark, closing, ih, List.append_nil]

theorem quotesOf_hostUse {host : List Char} (none : quotesOf host = []) (s : List Char) :
    quotesOf ((hostUse s).1.text host) ++ quotesOf (hostUse s).2 = quotesOf s := by
  fun_cases hostUse s with
  | case1 => rfl
  | case2 s argument rest closed =>
    have opening : quotesOf ('(' :: (argument ++ ')' :: rest)) =
        quotesOf (argument ++ ')' :: rest) := rfl
    have closing : quotesOf (')' :: rest) = quotesOf rest := rfl
    rw [closeArgument_append closed, HostUse.text, opening, quotesOf_append, quotesOf_append,
      quotesOf_trim, none, closing, List.append_nil]
  | case3 => rw [HostUse.text, none]; rfl
  | case4 => rw [HostUse.text, none]; rfl

theorem quotesOf_replaceHost {host : List Char} (none : quotesOf host = []) (s : List Char) :
    quotesOf (replaceHost host s) = quotesOf s := by
  fun_induction replaceHost host s with
  | case1 => rfl
  | case2 s before after found ih =>
    have mark : quotesOf hostMark = [] := rfl
    rw [Text.cut?_append found, quotesOf_append, quotesOf_append, ih, quotesOf_append,
      quotesOf_append, mark, List.append_nil, List.append_assoc, quotesOf_hostUse none]

theorem quotesOf_addClass {name : List Char} (none : quotesOf name = []) (depth : Nat)
    (s : List Char) : quotesOf (addClass name depth s) = quotesOf s := by
  induction s generalizing depth with
  | nil => exact none
  | cons c s ih =>
    rw [addClass]
    split
    · rw [quotesOf_append, none, List.nil_append]
    · rw [← List.singleton_append, quotesOf_append, ih, ← quotesOf_append, List.singleton_append]

theorem quotesOf_class (none : quotesOf scope = []) :
    quotesOf (ownClass scope) = [] ∧ quotesOf (hostClass scope) = [] ∧
      quotesOf (slotClass scope) = [] := by
  have own : quotesOf (ownClass scope) = [] := none
  refine ⟨own, ?_, ?_⟩
  · exact (quotesOf_append (ownClass scope) _).trans (by rw [own]; rfl)
  · exact (quotesOf_append (ownClass scope) _).trans (by rw [own]; rfl)

theorem quotesOf_scopeComplex (none : quotesOf scope = []) (s : List Char) :
    quotesOf (scopeComplex scope s) = quotesOf s := by
  obtain ⟨own, host, slot⟩ := quotesOf_class none
  rw [scopeComplex]
  split
  · exact quotesOf_replaceSlotted slot s
  · rw [scopeUnslotted_eq]
    split
    · exact quotesOf_replaceHost host s
    · rw [quotesOf_append, quotesOf_addClass own, ← quotesOf_append, lastCompound_append,
        quotesOf_replaceHost host]

theorem quotesOf_intercalate {sign : List Char} (none : quotesOf sign = [])
    (parts : List (List Char)) : quotesOf (sign.intercalate parts) = parts.flatMap quotesOf := by
  induction parts with
  | nil => rfl
  | cons part parts ih =>
    cases parts with
    | nil => simp
    | cons next parts =>
      rw [List.intercalate_cons_cons, quotesOf_append, quotesOf_append, none, ih, List.append_nil]
      rfl

/-- The quotes of a list stay as they are. -/
theorem quotesOf_scopeList (none : quotesOf scope = []) (s : List Char) :
    quotesOf (scopeList scope s) = quotesOf s := by
  have whole := congrArg quotesOf (intercalate_splitList 0 s)
  rw [quotesOf_intercalate rfl] at whole
  rw [scopeList, quotesOf_intercalate rfl, ← whole, List.flatMap_map]
  refine congrArg (List.flatMap · (splitList 0 s)) (funext fun part => ?_)
  rw [quotesOf_scopeComplex none, quotesOf_trim]

end Scoping

end StyleModule.Css
