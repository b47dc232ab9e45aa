import StyleModule.Proofs.Name.Legal
import StyleModule.Proofs.Program.Written

/-!
# The lines of a program

A program is read back line by line just where each of its specifiers can stand between single
quotes as it is (`Program.readLines_render_iff`). One direction is that of `Program.Written`; the
other is an invariant of the reader of tokens, which takes nothing for a quoted text that needs an
escape.
-/

namespace StyleModule

/-! ## What is read between quotes -/

/-- A text that is read between single quotes has no character that needs an escape. -/
theorem Token.plain_of_next? {c : Char} {s rest : List Char} {text : String}
    (h : next? c s = some (.quoted text, rest)) : ∀ d ∈ text.toList, needsEscape d = false := by
  unfold next? at h
  split at h
  · cases h
  split at h
  · cases h
  split at h
  · split at h
    next =>
      cases h
      intro d mem
      rw [String.toList_ofList] at mem
      have plain := List.all_eq_true.1 (List.all_takeWhile (l := s) (p := (! needsEscape ·))) d mem
      simpa using plain
    next => cases h
  split at h
  · obtain ⟨_, _, h⟩ := Option.bind_eq_some_iff.1 h
    obtain ⟨_, _, h⟩ := Option.bind_eq_some_iff.1 h
    cases h
  · cases h

theorem Token.plain_of_all {s : List Char} {tokens : List Token} (h : all s = some tokens)
    {text : String} (mem : .quoted text ∈ tokens) :
    ∀ d ∈ text.toList, needsEscape d = false := by
  fun_induction all s generalizing tokens with
  | case1 => cases h; cases mem
  | case2 c s blank ih => exact ih h mem
  | case3 c s dark token rest read ih =>
    obtain ⟨others, found, rfl⟩ := Option.map_eq_some_iff.1 h
    rcases List.mem_cons.1 mem with rfl | mem
    · exact plain_of_next? read
    · exact ih found mem
  | case4 => cases h

/-- The specifier of an import is a text between quotes. -/
theorem Script.quoted_mem_of_readLine {format : Format} {tokens : List Token} {b : Binding}
    (h : readLine format tokens = some (.imports b)) : .quoted b.specifier ∈ tokens := by
  unfold readLine at h
  split at h
  next => cases h; simp
  next => cases h; simp
  next => cases h
  next => cases h
  next =>
    obtain ⟨_, _, h⟩ := Option.map_eq_some_iff.1 h
    cases h
  next => cases h

theorem Script.plain_of_readLines {format : Format} {text : List Char} {lines : List Line}
    (h : readLines format text = some lines) {b : Binding} (mem : .imports b ∈ lines) :
    ∀ c ∈ b.specifier.toList, Token.needsEscape c = false := by
  unfold readLines at h
  generalize text.splitOn '\n' = rows at h
  induction rows generalizing lines with
  | nil => cases h; cases mem
  | cons row rows ih =>
    rw [List.mapM_cons] at h
    obtain ⟨line, read, h⟩ := Option.bind_eq_some_iff.1 h
    obtain ⟨others, found, h⟩ := Option.bind_eq_some_iff.1 h
    cases h
    rcases List.mem_cons.1 mem with rfl | mem
    · obtain ⟨tokens, all, read⟩ := Option.bind_eq_some_iff.1 read
      exact Token.plain_of_all all (quoted_mem_of_readLine read)
    · exact ih mem found

/-! ## Programs -/

/-- A legal name is a word. -/
theorem Name.Legal.isWord {name : String} (legal : Legal name) :
    StyleModule.isWord name.toList = true := by
  obtain ⟨c, s, shape, opens, others⟩ := legal.shape
  have first : opensWord c = true := by
    unfold opensName at opens
    unfold opensWord Char.isAlpha
    rcases Bool.or_eq_true_iff.1 opens with lower | underscore
    · rw [lower, Bool.or_true, Bool.true_or, Bool.true_or, Bool.true_or]
    · rw [underscore, Bool.or_true, Bool.true_or, Bool.true_or]
  have rest : s.all continuesWord = true := by
    rw [List.all_eq_true]
    intro d mem
    have letter := others d mem
    unfold Char.isAlphanum at letter
    unfold continuesWord opensWord
    rcases Bool.or_eq_true_iff.1 letter with alpha | digit
    · rw [alpha, Bool.true_or, Bool.true_or, Bool.true_or, Bool.true_or]
    · rw [digit, Bool.or_true]
  rw [shape, StyleModule.isWord, first, rest]
  rfl

/-- A program whose names are words is read back line by line just where every specifier can stand
between single quotes as it is. -/
theorem Program.readLines_render_iff {p : Program}
    (words : ∀ name ∈ p.name :: p.imports.map Binding.name, isWord name.toList = true)
    (format : Format) :
    Script.readLines format (p.render format).toList =
        some (p.imports.map Line.imports ++
          [.binds p.name (p.imports.map Binding.name) p.text, .exports p.name]) ↔
      ∀ b ∈ p.imports, ∀ c ∈ b.specifier.toList, Token.needsEscape c = false := by
  constructor
  · intro read b mem
    exact Script.plain_of_readLines read
      (List.mem_append_left _ (List.mem_map_of_mem mem))
  · intro plain
    exact readLines_render_of_plain words plain format

end StyleModule
