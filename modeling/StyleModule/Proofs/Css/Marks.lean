import StyleModule.Proofs.Css.Outside
import StyleModule.Proofs.Text.Removal

/-!
# Marks of the shadow tree

`:host` and `::slotted(` mean something in a shadow tree only. Here a selector is told as segments:
text that means nothing there, and uses of the two marks. What begins as the mark of the host element
may also be the beginning of `:host-context`, and is then no mark.

Marks are looked for in text, so a selector can be told so where no mark begins in the text between
the uses, also not with what is behind it (`Mark.Silent`). Then replacing them replaces the uses:
`replaceHost_spelled` and `replaceSlotted_spelled`.
-/

namespace StyleModule.Css

/-- What means something in a shadow tree only. -/
inductive Mark where
  | host
  | slotted
  deriving DecidableEq, Repr

/-- What begins like the mark of the host element, and is none. -/
def hostContext : List Char := ":host-context".toList

namespace Mark

/-- How a mark is written. -/
def text : Mark → List Char
  | .host => hostMark
  | .slotted => slottedMark

/-- Does a mark stand at the beginning of a text? -/
def Begins : Mark → List Char → Prop
  | .host, s => hostMark <+: s ∧ ¬ hostContext <+: s
  | .slotted, s => slottedMark <+: s

/-- No mark begins in the text, with another text behind it. -/
def Silent (m : Mark) : List Char → List Char → Prop
  | [], _ => True
  | c :: t, s => ¬ m.Begins (c :: (t ++ s)) ∧ m.Silent t s

variable {m : Mark} {t s : List Char}

theorem silent_append {a b : List Char} :
    m.Silent (a ++ b) s ↔ m.Silent a (b ++ s) ∧ m.Silent b s := by
  induction a with
  | nil => exact (and_iff_right trivial).symm
  | cons c a ih =>
    rw [List.cons_append, Silent, Silent, ih, and_assoc, List.append_assoc]

/-- A mark begins nowhere in a silent text. -/
theorem Silent.not_begins {a b : List Char} (silent : m.Silent t s) (split : t = a ++ b)
    (some : b ≠ []) : ¬ m.Begins (b ++ s) := by
  subst split
  obtain ⟨c, b, rfl⟩ := List.exists_cons_of_ne_nil some
  exact (silent_append.1 silent).2.1

theorem Begins.prefix (h : m.Begins s) : m.text <+: s := by
  cases m with
  | host => exact h.1
  | slotted => exact h

theorem head?_text (m : Mark) : m.text.head? = some ':' := by
  cases m <;> rfl

theorem Begins.colon {c : Char} (h : m.Begins (c :: s)) : c = ':' := by
  obtain ⟨rest, split⟩ := h.prefix
  have head := congrArg List.head? split
  rw [List.head?_append, head?_text] at head
  exact (Option.some.inj head).symm

/-- No mark begins in a text without a colon. -/
theorem silent_of_colonless (colonless : ':' ∉ t) (s : List Char) : m.Silent t s := by
  induction t with
  | nil => trivial
  | cons c t ih =>
    rw [List.mem_cons, not_or] at colonless
    exact ⟨fun h => colonless.1 h.colon.symm, ih colonless.2⟩

/-- A text without a mark is silent. -/
theorem silent_of_not_infix (absent : ¬ m.text <:+: t) : m.Silent t [] := by
  induction t with
  | nil => trivial
  | cons c t ih =>
    rw [List.infix_cons_iff, not_or] at absent
    refine ⟨fun h => absent.1 ?_, ih absent.2⟩
    rw [List.append_nil] at h
    exact h.prefix

/-- A silent text speaks of no slotted content. -/
theorem not_infix_of_silent (silent : Mark.slotted.Silent t []) : ¬ slottedMark <:+: t := by
  induction t with
  | nil => decide
  | cons c t ih =>
    obtain ⟨here, later⟩ := silent
    rw [List.append_nil] at here
    rw [List.infix_cons_iff, not_or]
    exact ⟨here, ih later⟩

/-! ### What is behind a text -/

/-- No mark is cut by the end of the text with the rest of it behind. -/
def Apart (m : Mark) (t s : List Char) : Prop :=
  ∀ u v, u ≠ [] → v ≠ [] → u ++ v = m.text → u <:+ t → ¬ v <+: s

/-- A mark at the beginning of two texts is in the first of them, or cut by its end. -/
theorem begins_append {u : List Char} (h : m.Begins (u ++ s)) :
    m.Begins u ∨ ∃ v, v ≠ [] ∧ u ++ v = m.text ∧ v <+: s := by
  have whole := h.prefix
  rcases List.prefix_or_prefix_of_prefix whole (List.prefix_append u s) with inside | ⟨v, cut⟩
  · refine .inl ?_
    cases m with
    | host => exact ⟨inside, fun context => h.2 (context.trans (List.prefix_append u s))⟩
    | slotted => exact inside
  · by_cases none : v = []
    · subst none
      rw [List.append_nil] at cut
      refine .inl ?_
      cases m with
      | host =>
        exact ⟨cut ▸ List.prefix_rfl, fun context => h.2 (context.trans (List.prefix_append u s))⟩
      | slotted => exact cut ▸ List.prefix_rfl
    · refine .inr ⟨v, none, cut, ?_⟩
      rw [← cut] at whole
      exact (List.prefix_append_right_inj u).1 whole

theorem Apart.of_cons {c : Char} (apart : m.Apart (c :: t) s) : m.Apart t s :=
  fun u v hu hv cut ends => apart u v hu hv cut (ends.trans (List.suffix_cons c t))

/-- A text without marks is silent where none is cut by its end. -/
theorem Silent.of_apart (silent : m.Silent t []) (apart : m.Apart t s) : m.Silent t s := by
  induction t with
  | nil => trivial
  | cons c t ih =>
    obtain ⟨here, later⟩ := silent
    rw [List.append_nil] at here
    refine ⟨fun h => ?_, ih later apart.of_cons⟩
    rcases begins_append (u := c :: t) h with inside | ⟨v, some, cut, behind⟩
    · exact here inside
    · exact apart _ v (List.cons_ne_nil _ _) some cut List.suffix_rfl behind

/-- What begins with no character of a mark's inside goes on with none. -/
theorem apart_of_head (other : ∀ c ∈ s.head?, c ∉ m.text.tail) (t : List Char) : m.Apart t s := by
  rintro u v hu hv cut - ⟨rest, rfl⟩
  obtain ⟨c, v, rfl⟩ := List.exists_cons_of_ne_nil hv
  obtain ⟨d, u, rfl⟩ := List.exists_cons_of_ne_nil hu
  refine other c rfl ?_
  rw [← cut]
  exact List.mem_append_right u List.mem_cons_self

/-- A text that does not break off in the middle of a mark. -/
def Ended (m : Mark) (t : List Char) : Prop :=
  ∀ n < m.text.length, n ≠ 0 → ¬ m.text.take n <:+ t

instance : Decidable (m.Ended t) :=
  inferInstanceAs (Decidable (∀ n < m.text.length, n ≠ 0 → ¬ m.text.take n <:+ t))

theorem Ended.apart (ended : m.Ended t) (s : List Char) : m.Apart t s := by
  rintro u v hu hv cut ends -
  have shorter : u.length < m.text.length := by
    rw [← cut, List.length_append]
    exact Nat.lt_add_of_pos_right (List.length_pos_iff.2 hv)
  refine ended u.length shorter (fun none => hu (List.length_eq_zero_iff.1 none)) ?_
  rwa [← cut, List.take_left]

end Mark

/-! ## Segments -/

/-- A piece of a selector: text without marks, or the use of a mark. -/
inductive Segment where
  | plain (text : List Char)
  | host
  | hostOf (argument : List Char)
  | slotted (argument : List Char)
  deriving DecidableEq, Repr

namespace Segment

def text : Segment → List Char
  | .plain text => text
  | .host => hostMark
  | .hostOf argument => hostMark ++ '(' :: (argument ++ [')'])
  | .slotted argument => slottedMark ++ (argument ++ [')'])

/-- What a segment is where the marks of the host are replaced. -/
def hosted (host : List Char) : Segment → List Char
  | .host => host
  | .hostOf argument => Text.trim argument ++ host
  | segment => segment.text

/-- What a segment is where slotted content is replaced. -/
def unslotted (slot : List Char) : Segment → List Char
  | .slotted argument => slot ++ " > ".toList ++ Text.trim argument
  | segment => segment.text

def isSlotted : Segment → Bool
  | .slotted _ => true
  | _ => false

def isHost : Segment → Bool
  | .host => true
  | .hostOf _ => true
  | _ => false

end Segment

/-- The text of segments. -/
def spelled (segments : List Segment) : List Char := segments.flatMap Segment.text

theorem spelled_cons (segment : Segment) (segments : List Segment) :
    spelled (segment :: segments) = segment.text ++ spelled segments := List.flatMap_cons

/-- Segments that a reader finds where they are: no mark begins in the plain text between the uses,
arguments are closed, none mentions slotted content, and a host without an argument is followed by
nothing that makes it another name, or an argument. -/
def Legible : List Segment → Prop
  | [] => True
  | .plain t :: rest => (∀ m : Mark, m.Silent t (spelled rest)) ∧ Legible rest
  | .host :: rest => (∀ c ∈ (spelled rest).head?, c ≠ '(' ∧ c ≠ '-') ∧ Legible rest
  | .hostOf argument :: rest => closesAll '(' ')' 0 argument = true ∧
      Mark.slotted.Silent argument [] ∧ Legible rest
  | .slotted argument :: rest => closesAll '(' ')' 0 argument = true ∧ Legible rest

/-! ## Replacing the marks of the host -/

section ReplaceHost

variable {host : List Char}

theorem replaceHost_eq (host s : List Char) :
    replaceHost host s =
      match Text.cut? hostMark s with
      | none => s
      | some (before, after) =>
        before ++ (hostUse after).1.text host ++ replaceHost host (hostUse after).2 := by
  rw [replaceHost]
  split <;> simp only [*]

/-- A mark at the beginning is replaced by what it is used for. -/
theorem replaceHost_hostMark (s : List Char) :
    replaceHost host (hostMark ++ s) =
      (hostUse s).1.text host ++ replaceHost host (hostUse s).2 := by
  have found : Text.cut? hostMark (hostMark ++ s) = some ([], s) := rfl
  rw [replaceHost_eq, found]
  rfl

theorem replaceHost_cons_of_not_prefix {c : Char} {s : List Char}
    (absent : ¬ hostMark <+: c :: s) : replaceHost host (c :: s) = c :: replaceHost host s := by
  rw [replaceHost_eq, replaceHost_eq host s, Text.cut?, Text.after?_eq_none absent]
  cases Text.cut? hostMark s with
  | none => rfl
  | some found => rfl

theorem replaceHost_append_of_colonless {t : List Char} (colonless : ':' ∉ t) (s : List Char) :
    replaceHost host (t ++ s) = t ++ replaceHost host s := by
  induction t with
  | nil => rfl
  | cons c t ih =>
    rw [List.mem_cons, not_or] at colonless
    have absent : ¬ hostMark <+: c :: (t ++ s) := by
      rintro ⟨rest, split⟩
      exact colonless.1 (List.cons.inj split).1
    rw [List.cons_append, replaceHost_cons_of_not_prefix absent, ih colonless.2, List.cons_append]

/-- Where no mark begins, a character stays. The beginning of `:host-context` is found as a mark and
put back as it was. -/
theorem replaceHost_cons {c : Char} {s : List Char} (silent : ¬ Mark.host.Begins (c :: s)) :
    replaceHost host (c :: s) = c :: replaceHost host s := by
  by_cases marked : hostMark <+: c :: s
  · obtain ⟨rest, split⟩ : hostContext <+: c :: s :=
      Classical.byContradiction fun other => silent ⟨marked, other⟩
    obtain ⟨rfl, rfl⟩ := List.cons.inj split
    have skipped : replaceHost host ("host".toList ++ '-' :: ("context".toList ++ rest)) = _ :=
      replaceHost_append_of_colonless (by decide) _
    exact (replaceHost_hostMark ('-' :: ("context".toList ++ rest))).trans
      (congrArg (':' :: ·) skipped.symm)
  · exact replaceHost_cons_of_not_prefix marked

theorem replaceHost_append {t s : List Char} (silent : Mark.host.Silent t s) :
    replaceHost host (t ++ s) = t ++ replaceHost host s := by
  induction t with
  | nil => rfl
  | cons c t ih =>
    rw [List.cons_append, replaceHost_cons silent.1, ih silent.2, List.cons_append]

theorem hostUse_alone {s : List Char} (alone : ∀ c ∈ s.head?, c ≠ '(' ∧ c ≠ '-') :
    hostUse s = (.alone, s) := by
  cases s with
  | nil => rfl
  | cons c s =>
    obtain ⟨noArgument, noName⟩ := alone c rfl
    unfold hostUse
    split
    next split => exact absurd (List.cons.inj split).1 noName
    next split => exact absurd (List.cons.inj split).1 noArgument
    next => rfl

theorem hostUse_applied {argument : List Char} (closed : closesAll '(' ')' 0 argument = true)
    (s : List Char) : hostUse ('(' :: (argument ++ ')' :: s)) = (.applied argument, s) := by
  rw [hostUse, closeArgument_of_closesAll closed]

/-- In a selector without slotted content, each mark of the host is replaced, and each argument is
put in front of what replaces it. -/
theorem replaceHost_spelled {segments : List Segment} (legible : Legible segments)
    (hosts : segments.any Segment.isSlotted = false) :
    replaceHost host (spelled segments) = segments.flatMap (Segment.hosted host) := by
  induction segments with
  | nil =>
    rw [spelled, List.flatMap_nil, List.flatMap_nil, replaceHost_eq]
    rfl
  | cons segment segments ih =>
    rw [List.any_cons, Bool.or_eq_false_iff] at hosts
    rw [spelled_cons, List.flatMap_cons]
    cases segment with
    | plain t =>
      obtain ⟨silent, legible⟩ := legible
      rw [Segment.text, replaceHost_append (silent .host), ih legible hosts.2]
      rfl
    | host =>
      obtain ⟨alone, legible⟩ := legible
      rw [Segment.text, replaceHost_hostMark, hostUse_alone alone, ih legible hosts.2]
      rfl
    | hostOf argument =>
      obtain ⟨closed, -, legible⟩ := legible
      have text : (Segment.hostOf argument).text ++ spelled segments =
          hostMark ++ '(' :: (argument ++ ')' :: spelled segments) := by
        simp [Segment.text]
      rw [text, replaceHost_hostMark, hostUse_applied closed, ih legible hosts.2]
      rfl
    | slotted argument => cases hosts.1

end ReplaceHost

/-! ## Replacing slotted content -/

section ReplaceSlotted

variable {slot : List Char}

theorem replaceSlotted_eq (slot s : List Char) :
    replaceSlotted slot s =
      match nextSlotted s with
      | none => s
      | some (before, inner, rest) =>
        before ++ slot ++ " > ".toList ++ Text.trim inner ++ replaceSlotted slot rest := by
  rw [replaceSlotted]
  split <;> simp only [*]

theorem nextSlotted_cons {c : Char} {s : List Char} (absent : ¬ slottedMark <+: c :: s) :
    nextSlotted (c :: s) =
      (nextSlotted s).map fun (before, inner, rest) => (c :: before, inner, rest) := by
  rw [nextSlotted, nextSlotted, Text.cut?, Text.after?_eq_none absent]
  cases Text.cut? slottedMark s with
  | none => rfl
  | some found =>
    show (closeArgument 0 found.2).map _ = ((closeArgument 0 found.2).map _).map _
    rw [Option.map_map]
    rfl

theorem replaceSlotted_cons {c : Char} {s : List Char} (absent : ¬ slottedMark <+: c :: s) :
    replaceSlotted slot (c :: s) = c :: replaceSlotted slot s := by
  rw [replaceSlotted_eq, replaceSlotted_eq slot s, nextSlotted_cons absent]
  cases nextSlotted s with
  | none => rfl
  | some found => rfl

theorem replaceSlotted_append {t s : List Char} (silent : Mark.slotted.Silent t s) :
    replaceSlotted slot (t ++ s) = t ++ replaceSlotted slot s := by
  induction t with
  | nil => rfl
  | cons c t ih =>
    have absent : ¬ slottedMark <+: c :: (t ++ s) := silent.1
    rw [List.cons_append, replaceSlotted_cons absent, ih silent.2, List.cons_append]

theorem replaceSlotted_slotted {argument : List Char}
    (closed : closesAll '(' ')' 0 argument = true) (s : List Char) :
    replaceSlotted slot (slottedMark ++ (argument ++ ')' :: s)) =
      slot ++ " > ".toList ++ Text.trim argument ++ replaceSlotted slot s := by
  have found : Text.cut? slottedMark (slottedMark ++ (argument ++ ')' :: s)) =
      some ([], argument ++ ')' :: s) := rfl
  rw [replaceSlotted_eq, nextSlotted, found]
  simp only [closeArgument_of_closesAll closed, Option.map_some, List.nil_append]

/-- The mark of the host begins no slotted content. -/
theorem silent_hostMark (s : List Char) : Mark.slotted.Silent hostMark s := by
  refine ⟨?_, Mark.silent_of_colonless (t := "host".toList) (by decide) s⟩
  rintro ⟨rest, split⟩
  have second := (List.cons.inj (List.cons.inj split).2).1
  exact absurd second (by decide)

/-- The use of a host with an argument mentions no slotted content where the argument does not. -/
theorem silent_hostOf {argument : List Char} (silent : Mark.slotted.Silent argument [])
    (s : List Char) : Mark.slotted.Silent (Segment.hostOf argument).text s := by
  have text : (Segment.hostOf argument).text = hostMark ++ (['('] ++ (argument ++ [')'])) := rfl
  rw [text, Mark.silent_append, Mark.silent_append, Mark.silent_append]
  refine ⟨silent_hostMark _, Mark.silent_of_colonless (by decide) _, ?_,
    Mark.silent_of_colonless (by decide) _⟩
  refine silent.of_apart (Mark.apart_of_head ?_ _)
  rintro c ⟨⟩
  decide

/-- Each slotted content is replaced by its argument, below the slot. -/
theorem replaceSlotted_spelled {segments : List Segment} (legible : Legible segments) :
    replaceSlotted slot (spelled segments) = segments.flatMap (Segment.unslotted slot) := by
  induction segments with
  | nil =>
    rw [spelled, List.flatMap_nil, List.flatMap_nil, replaceSlotted_eq]
    rfl
  | cons segment segments ih =>
    rw [spelled_cons, List.flatMap_cons]
    cases segment with
    | plain t =>
      obtain ⟨silent, legible⟩ := legible
      rw [Segment.text, replaceSlotted_append (silent .slotted), ih legible]
      rfl
    | host =>
      obtain ⟨-, legible⟩ := legible
      rw [Segment.text, replaceSlotted_append (silent_hostMark _), ih legible]
      rfl
    | hostOf argument =>
      obtain ⟨-, silent, legible⟩ := legible
      rw [replaceSlotted_append (silent_hostOf silent _), ih legible]
      rfl
    | slotted argument =>
      obtain ⟨closed, legible⟩ := legible
      have text : (Segment.slotted argument).text ++ spelled segments =
          slottedMark ++ (argument ++ ')' :: spelled segments) := by
        simp [Segment.text]
      rw [text, replaceSlotted_slotted closed, ih legible]
      rfl

/-- Where there is no slotted content, the text speaks of none. -/
theorem silent_spelled {segments : List Segment} (legible : Legible segments)
    (none : segments.any Segment.isSlotted = false) : Mark.slotted.Silent (spelled segments) [] := by
  induction segments with
  | nil => trivial
  | cons segment segments ih =>
    rw [List.any_cons, Bool.or_eq_false_iff] at none
    rw [spelled_cons, Mark.silent_append, List.append_nil]
    cases segment with
    | plain t => exact ⟨legible.1 .slotted, ih legible.2 none.2⟩
    | host => exact ⟨silent_hostMark _, ih legible.2 none.2⟩
    | hostOf argument => exact ⟨silent_hostOf legible.2.1 _, ih legible.2.2 none.2⟩
    | slotted argument => cases none.1

theorem infix_spelled {segments : List Segment} {segment : Segment} (mem : segment ∈ segments) :
    segment.text <:+: spelled segments := by
  obtain ⟨before, behind, rfl⟩ := List.append_of_mem mem
  refine ⟨spelled before, spelled behind, ?_⟩
  simp only [spelled, List.flatMap_append, List.flatMap_cons, List.append_assoc]

/-- Slotted content is found in a selector just where it is used in it. -/
theorem contains_slottedMark {segments : List Segment} (legible : Legible segments) :
    Text.contains slottedMark (spelled segments) = segments.any Segment.isSlotted := by
  cases used : segments.any Segment.isSlotted with
  | false =>
    rw [← Bool.not_eq_true, Text.contains_iff_infix]
    exact Mark.not_infix_of_silent (silent_spelled legible used)
  | true =>
    obtain ⟨segment, mem, slotted⟩ := List.any_eq_true.1 used
    cases segment with
    | slotted argument =>
      rw [Text.contains_iff_infix]
      exact (List.prefix_append slottedMark _).isInfix.trans (infix_spelled mem)
    | plain | host | hostOf => cases slotted

end ReplaceSlotted

end StyleModule.Css
