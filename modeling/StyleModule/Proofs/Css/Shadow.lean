import StyleModule.Proofs.Css.Marks
import StyleModule.Proofs.Css.Placement

/-!
# What is left of the shadow tree

A scoped list of selectors should speak of no shadow tree: each mark in it is replaced, so none is
left. `host_survives_iff` says how far this is so, for lists whose selectors are ordinary text with
any number of marks in it, in any order. No slotted content is ever left. A host is left just where
a selector uses both marks, since only the slotted content is replaced in such a selector.

Text is `Ordinary` where it has no mark in it and does not break off in the middle of one, so that
none comes about where texts are put together.
-/

namespace StyleModule.Css

theorem colonless_class {scope : List Char} (colonless : ':' ∉ scope) :
    ':' ∉ ownClass scope ∧ ':' ∉ hostClass scope ∧ ':' ∉ slotClass scope := by
  have own : ':' ∉ ownClass scope := by
    rw [ownClass, List.mem_cons, not_or]
    exact ⟨by decide, colonless⟩
  refine ⟨own, ?_, ?_⟩
  · exact fun mem => (List.mem_append.1 mem).elim own (by decide)
  · exact fun mem => (List.mem_append.1 mem).elim own (by decide)

namespace Mark

variable {m : Mark} {s t : List Char}

/-- A mark stands somewhere in a text; that of the host counts where it does not begin
`:host-context`. -/
def Survives (m : Mark) (s : List Char) : Prop := ∃ a b, a ++ b = s ∧ m.Begins b

theorem Begins.survives (h : m.Begins s) : m.Survives s := ⟨[], s, rfl, h⟩

theorem not_survives_iff : ¬ m.Survives s ↔ m.Silent s [] := by
  constructor
  · intro none
    induction s with
    | nil => trivial
    | cons c s ih =>
      refine ⟨fun h => none ⟨[], c :: s, rfl, by rwa [List.append_nil] at h⟩, ih ?_⟩
      rintro ⟨a, b, rfl, h⟩
      exact none ⟨c :: a, b, rfl, h⟩
  · rintro silent ⟨a, b, rfl, h⟩
    cases b with
    | nil =>
      obtain ⟨rest, split⟩ := h.prefix
      cases m <;> cases split
    | cons c b =>
      have absent := silent.not_begins rfl (List.cons_ne_nil c b)
      rw [List.append_nil] at absent
      exact absent h

theorem Survives.prepend (h : m.Survives s) (a : List Char) : m.Survives (a ++ s) := by
  obtain ⟨before, rest, rfl, begins⟩ := h
  exact ⟨a ++ before, rest, List.append_assoc .., begins⟩

/-- Where no mark begins in a text, one is left in what is behind it. -/
theorem survives_append_iff (silent : m.Silent t s) : m.Survives (t ++ s) ↔ m.Survives s := by
  refine ⟨fun h => Classical.byContradiction fun none => ?_, fun h => h.prepend t⟩
  refine not_survives_iff.2 (silent_append.2 ⟨?_, not_survives_iff.1 none⟩) h
  rwa [List.append_nil]

/-- A mark stays one in front of a text that does not go on with its name. -/
theorem Begins.append (h : m.Begins t) (other : ∀ c ∈ s.head?, c ∉ hostContext.tail) :
    m.Begins (t ++ s) := by
  cases m with
  | slotted => exact List.IsPrefix.trans h (List.prefix_append t s)
  | host =>
    refine ⟨h.1.trans (List.prefix_append t s), fun context => ?_⟩
    rcases List.prefix_or_prefix_of_prefix context (List.prefix_append t s) with inside | ⟨v, cut⟩
    · exact h.2 inside
    · cases v with
      | nil =>
        rw [List.append_nil] at cut
        exact h.2 (cut ▸ List.prefix_rfl)
      | cons c v =>
        rw [← cut, List.prefix_append_right_inj] at context
        obtain ⟨rest, rfl⟩ := context
        obtain ⟨d, t, rfl⟩ : ∃ d t', t = d :: t' := by
          obtain ⟨rest, rfl⟩ := h.1
          exact ⟨':', _, rfl⟩
        refine other c rfl ?_
        rw [← cut]
        exact List.mem_append_right t List.mem_cons_self

theorem Survives.append (h : m.Survives t) (other : ∀ c ∈ s.head?, c ∉ hostContext.tail) :
    m.Survives (t ++ s) := by
  obtain ⟨before, rest, rfl, begins⟩ := h
  exact ⟨before, rest ++ s, (List.append_assoc ..).symm, begins.append other⟩

/-- What is silent in front of a text that goes on with no name is silent by itself. -/
theorem Silent.bare (silent : m.Silent t s) (other : ∀ c ∈ s.head?, c ∉ hostContext.tail) :
    m.Silent t [] := by
  rw [← not_survives_iff]
  rintro ⟨a, b, rfl, h⟩
  cases b with
  | nil =>
    obtain ⟨rest, split⟩ := h.prefix
    cases m <;> cases split
  | cons c b => exact silent.not_begins rfl (List.cons_ne_nil c b) (h.append other)

/-- A class put in its place cuts no mark, and makes none. -/
theorem Silent.insertClass {scope : List Char} (silent : m.Silent s []) (colonless : ':' ∉ scope) :
    m.Silent (Css.insertClass (ownClass scope) s) [] := by
  obtain ⟨before, after, rfl, place⟩ := exists_classPlace s
  rw [silent_append, List.append_nil] at silent
  have bare : m.Silent before [] := by
    refine silent.1.bare ?_
    cases place with
    | colon => rintro c ⟨⟩; decide
    | ending => nofun
  have own := (colonless_class colonless).1
  rw [place.insertClass, silent_append, silent_append, List.append_nil]
  refine ⟨bare.of_apart (apart_of_head ?_ _), silent_of_colonless own _, silent.2⟩
  rintro c ⟨⟩
  cases m <;> decide

end Mark

/-! ## Ordinary text with marks -/

/-- Text without marks that does not break off in the middle of one. -/
def Ordinary (t : List Char) : Prop := ∀ m : Mark, m.Silent t [] ∧ m.Ended t

theorem Ordinary.silent {t : List Char} (ordinary : Ordinary t) (m : Mark) (s : List Char) :
    m.Silent t s :=
  (ordinary m).1.of_apart ((ordinary m).2.apart s)

/-- Text without a colon is ordinary. -/
theorem ordinary_of_colonless {t : List Char} (colonless : ':' ∉ t) : Ordinary t := by
  refine fun m => ⟨Mark.silent_of_colonless colonless [], fun n _ some ends => colonless ?_⟩
  obtain ⟨n, rfl⟩ := Nat.exists_eq_succ_of_ne_zero some
  have first : ':' ∈ m.text.take (n + 1) := by
    cases m <;> exact List.mem_cons_self
  exact ends.subset first

/-- Ordinary text between the uses of marks, whose arguments are closed and hold no mark. -/
def Mixed : List Segment → Prop
  | [] => True
  | .plain t :: rest => Ordinary t ∧ Mixed rest
  | .host :: rest => (∀ c ∈ (spelled rest).head?, c ≠ '(' ∧ c ≠ '-') ∧ Mixed rest
  | .hostOf argument :: rest => closesAll '(' ')' 0 argument = true ∧
      Ordinary (Text.trim argument) ∧ Mixed rest
  | .slotted argument :: rest => closesAll '(' ')' 0 argument = true ∧
      Ordinary (Text.trim argument) ∧ Mixed rest

/-- An argument mentions no mark where it does not without the blanks around it. -/
theorem silent_of_trim {argument : List Char} (ordinary : Ordinary (Text.trim argument)) (m : Mark)
    (s : List Char) : m.Silent argument s := by
  have head := Text.not_mem_of_allBlank (c := ':') (Text.blankHead_blank argument) rfl
  have tail := Text.not_mem_of_allBlank (c := ':') (Text.blankTail_blank argument) rfl
  rw [← Text.head_core_tail argument, Mark.silent_append, Mark.silent_append]
  exact ⟨⟨Mark.silent_of_colonless head _, ordinary.silent m _⟩,
    Mark.silent_of_colonless tail _⟩

variable {segments : List Segment} {scope : List Char}

theorem Mixed.legible (mixed : Mixed segments) : Legible segments := by
  induction segments with
  | nil => trivial
  | cons segment segments ih =>
    cases segment with
    | plain t => exact ⟨fun m => mixed.1.silent m _, ih mixed.2⟩
    | host => exact ⟨mixed.1, ih mixed.2⟩
    | hostOf argument =>
      exact ⟨mixed.1, silent_of_trim mixed.2.1 .slotted [], ih mixed.2.2⟩
    | slotted argument => exact ⟨mixed.1, ih mixed.2.2⟩

/-- Where hosts are replaced and nothing is slotted, no mark is left. -/
theorem silent_hosted (mixed : Mixed segments) (none : segments.any Segment.isSlotted = false)
    {host : List Char} (colonless : ':' ∉ host) (m : Mark) :
    m.Silent (segments.flatMap (Segment.hosted host)) [] := by
  induction segments with
  | nil => trivial
  | cons segment segments ih =>
    rw [List.any_cons, Bool.or_eq_false_iff] at none
    rw [List.flatMap_cons, Mark.silent_append]
    cases segment with
    | plain t => exact ⟨mixed.1.silent m _, ih mixed.2 none.2⟩
    | host => exact ⟨Mark.silent_of_colonless colonless _, ih mixed.2 none.2⟩
    | hostOf argument =>
      refine ⟨?_, ih mixed.2.2 none.2⟩
      rw [Segment.hosted, Mark.silent_append]
      exact ⟨mixed.2.1.silent m _, Mark.silent_of_colonless colonless _⟩
    | slotted argument => cases none.1

/-- A replaced slotted content has no mark in it. -/
theorem silent_unslotted {argument slot : List Char} (ordinary : Ordinary (Text.trim argument))
    (colonless : ':' ∉ slot) (m : Mark) (s : List Char) :
    m.Silent ((Segment.slotted argument).unslotted slot) s := by
  rw [Segment.unslotted, Mark.silent_append, Mark.silent_append]
  exact ⟨⟨Mark.silent_of_colonless colonless _, Mark.silent_of_colonless (by decide) _⟩,
    ordinary.silent m s⟩

/-- Where slotted content is replaced, none is left. -/
theorem silent_slotted (mixed : Mixed segments) {slot : List Char} (colonless : ':' ∉ slot) :
    Mark.slotted.Silent (segments.flatMap (Segment.unslotted slot)) [] := by
  induction segments with
  | nil => trivial
  | cons segment segments ih =>
    rw [List.flatMap_cons, Mark.silent_append]
    cases segment with
    | plain t => exact ⟨mixed.1.silent .slotted _, ih mixed.2⟩
    | host => exact ⟨silent_hostMark _, ih mixed.2⟩
    | hostOf argument =>
      exact ⟨silent_hostOf (silent_of_trim mixed.2.1 .slotted []) _, ih mixed.2.2⟩
    | slotted argument => exact ⟨silent_unslotted mixed.2.1 colonless .slotted _, ih mixed.2.2⟩

/-- Replacing slotted content puts nothing behind a host that makes it another name. -/
theorem head?_unslotted {slot : List Char} (dot : slot.head? = some '.')
    (alone : ∀ c ∈ (spelled segments).head?, c ≠ '(' ∧ c ≠ '-') :
    ∀ c ∈ (segments.flatMap (Segment.unslotted slot)).head?, c ≠ '-' := by
  induction segments with
  | nil => nofun
  | cons segment segments ih =>
    rw [spelled_cons] at alone
    rw [List.flatMap_cons]
    cases segment with
    | plain t =>
      cases t with
      | nil => exact ih alone
      | cons d t => exact fun c mem => (alone c mem).2
    | host => rintro c ⟨⟩; decide
    | hostOf argument => rintro c ⟨⟩; decide
    | slotted argument =>
      obtain ⟨rest, rfl⟩ : ∃ rest, slot = '.' :: rest := by
        cases slot with
        | nil => cases dot
        | cons d rest => exact ⟨rest, by rw [Option.some.inj dot]⟩
      rintro c ⟨⟩
      decide

/-- A host stands in front of what does not make it another name. -/
theorem begins_host {s : List Char} (other : ∀ c ∈ s.head?, c ≠ '-') :
    Mark.host.Begins (hostMark ++ s) := by
  refine ⟨List.prefix_append hostMark s, ?_⟩
  rintro ⟨rest, split⟩
  have longer : hostContext = hostMark ++ "-context".toList := rfl
  rw [longer, List.append_assoc] at split
  exact other '-' (by rw [← List.append_cancel_left split]; rfl) rfl

/-- Where only slotted content is replaced, a host is left if there was one. -/
theorem survives_unslotted_iff (mixed : Mixed segments) {slot : List Char}
    (dot : slot.head? = some '.') (colonless : ':' ∉ slot) :
    Mark.host.Survives (segments.flatMap (Segment.unslotted slot)) ↔
      segments.any Segment.isHost = true := by
  induction segments with
  | nil => simp [Mark.not_survives_iff.2 (show Mark.host.Silent [] [] from trivial)]
  | cons segment segments ih =>
    rw [List.flatMap_cons, List.any_cons]
    cases segment with
    | plain t => exact (Mark.survives_append_iff (mixed.1.silent .host _)).trans (ih mixed.2)
    | host => exact iff_of_true (begins_host (head?_unslotted dot mixed.1)).survives rfl
    | hostOf argument =>
      have text : (Segment.hostOf argument).unslotted slot =
          hostMark ++ '(' :: (argument ++ [')']) := rfl
      rw [text, List.append_assoc]
      exact iff_of_true (begins_host (by rintro c ⟨⟩; decide)).survives rfl
    | slotted argument =>
      exact (Mark.survives_append_iff (silent_unslotted mixed.2.1 colonless .host _)).trans
        (ih mixed.2.2)

/-! ## Scoped selectors -/

/-- Scoping a selector leaves no slotted content, and a host just where it is used beside slotted
content. -/
theorem survives_scopeComplex_iff (mixed : Mixed segments) (colonless : ':' ∉ scope) :
    ¬ Mark.slotted.Survives (scopeComplex scope (spelled segments)) ∧
      (Mark.host.Survives (scopeComplex scope (spelled segments)) ↔
        segments.any Segment.isHost = true ∧ segments.any Segment.isSlotted = true) := by
  obtain ⟨-, host, slot⟩ := colonless_class colonless
  rw [scopeComplex, contains_slottedMark mixed.legible]
  cases used : segments.any Segment.isSlotted with
  | true =>
    rw [if_pos rfl, replaceSlotted_spelled mixed.legible]
    exact ⟨Mark.not_survives_iff.2 (silent_slotted mixed slot),
      (survives_unslotted_iff mixed rfl slot).trans (and_iff_left rfl).symm⟩
  | false =>
    have silent : ∀ m : Mark, m.Silent (scopeUnslotted scope (spelled segments)) [] := by
      intro m
      rw [scopeUnslotted_eq, replaceHost_spelled mixed.legible used]
      split
      · exact silent_hosted mixed used host m
      · exact (silent_hosted mixed used host m).insertClass colonless
    rw [if_neg Bool.false_ne_true]
    exact ⟨Mark.not_survives_iff.2 (silent .slotted),
      iff_of_false (Mark.not_survives_iff.2 (silent .host)) fun both => Bool.false_ne_true both.2⟩

/-- A mark is left in a list just where one is left in a part of it. -/
theorem survives_intercalate_iff {m : Mark} {parts : List (List Char)} :
    m.Survives (", ".toList.intercalate parts) ↔ ∃ part ∈ parts, m.Survives part := by
  induction parts with
  | nil => simp [Mark.not_survives_iff.2 (show m.Silent [] [] from trivial)]
  | cons part parts ih =>
    cases parts with
    | nil => simp
    | cons next parts =>
      have other : ∀ c ∈ (", ".toList ++ ", ".toList.intercalate (next :: parts)).head?,
          c ∉ hostContext.tail ∧ c ∉ m.text.tail := by
        rintro c ⟨⟩
        cases m <;> decide
      rw [List.intercalate_cons_cons, List.append_assoc]
      constructor
      · intro h
        by_cases here : m.Survives part
        · exact ⟨part, List.mem_cons_self, here⟩
        · have silent := Mark.not_survives_iff.1 here
          have apart := silent.of_apart (Mark.apart_of_head (fun c mem => (other c mem).2) _)
          have sign : m.Silent ", ".toList (", ".toList.intercalate (next :: parts)) :=
            Mark.silent_of_colonless (by decide) _
          obtain ⟨later, mem, left⟩ :=
            ih.1 ((Mark.survives_append_iff sign).1 ((Mark.survives_append_iff apart).1 h))
          exact ⟨later, List.mem_cons_of_mem _ mem, left⟩
      · rintro ⟨found, mem, left⟩
        rcases List.mem_cons.1 mem with rfl | later
        · exact left.append fun c mem => (other c mem).1
        · exact ((ih.2 ⟨found, later, left⟩).prepend _).prepend _

/-- Scoping a list of selectors with marks leaves no slotted content. It leaves a host just where a
selector uses both a host and slotted content. -/
theorem host_survives_iff {list : List (Listed (List Segment))} (colonless : ':' ∉ scope)
    (some : list ≠ []) (fits : ∀ e ∈ list, e.Fits spelled ∧ Mixed e.selector) :
    ¬ slottedMark <:+: scopeList scope (listText spelled list) ∧
      (Mark.host.Survives (scopeList scope (listText spelled list)) ↔
        ∃ e ∈ list, e.selector.any Segment.isHost = true ∧
          e.selector.any Segment.isSlotted = true) := by
  have text := scopeList_listText scope (fun e mem => (fits e mem).1) some
  have each := fun e mem => survives_scopeComplex_iff (fits e mem).2 colonless
  rw [text]
  constructor
  · refine Mark.not_infix_of_silent (Mark.not_survives_iff.1 ?_)
    rw [survives_intercalate_iff]
    rintro ⟨part, listed, left⟩
    obtain ⟨e, mem, rfl⟩ := List.mem_map.1 listed
    exact (each e mem).1 left
  · rw [survives_intercalate_iff]
    constructor
    · rintro ⟨part, listed, left⟩
      obtain ⟨e, mem, rfl⟩ := List.mem_map.1 listed
      exact ⟨e, mem, (each e mem).2.1 left⟩
    · rintro ⟨e, mem, both⟩
      exact ⟨_, List.mem_map_of_mem mem, (each e mem).2.2 both⟩

/-- A host beside slotted content is left. -/
theorem host_survives_slotted :
    ':' ∉ "sc-x".toList ∧
      listText spelled [Listed.mk [] [.host, .plain [' '], .slotted "span".toList] []] =
        ":host ::slotted(span)".toList ∧
      scopeList "sc-x".toList ":host ::slotted(span)".toList =
        ":host .sc-x-s > span".toList ∧
      Mark.host.Survives (scopeList "sc-x".toList ":host ::slotted(span)".toList) := by
  have text : listText spelled [Listed.mk [] [.host, .plain [' '], .slotted "span".toList] []] =
      ":host ::slotted(span)".toList := by decide
  have colonless : ':' ∉ "sc-x".toList := by decide
  have fits : ∀ e ∈ [Listed.mk [] [.host, .plain [' '], .slotted "span".toList] []],
      e.Fits spelled ∧ Mixed e.selector := by
    intro e mem
    cases List.mem_singleton.1 mem
    refine ⟨⟨⟨rfl, rfl, ?_, ?_, nofun⟩, by decide⟩, ?_, ?_⟩
    · rintro c ⟨⟩
      rfl
    · rintro c ⟨⟩
      rfl
    · rintro c ⟨⟩
      decide
    exact ⟨ordinary_of_colonless (by decide), by decide, ordinary_of_colonless (by decide), trivial⟩
  have left := host_survives_iff colonless (List.cons_ne_nil _ _) fits
  rw [text] at left
  exact ⟨colonless, text, by decide +kernel, left.2.2 ⟨_, List.mem_singleton_self _, by decide⟩⟩

end StyleModule.Css
