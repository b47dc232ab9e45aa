import StyleModule.Proofs.Program.Tokens

/-!
# Reading generated programs

`Program.read_render`: what a program is written as is read back as the script of the program. The
text is taken line by line: each line that is written is a piece whose tokens are those of the line
it stands for, and the only line breaks are those between the lines.
-/

namespace StyleModule

/-- What is asked of a program for its text to mean something: its names are identifiers that a
script may bind, each of them once, and its specifiers can stand between single quotes. -/
structure Program.Emittable (p : Program) : Prop where
  distinct : (p.name :: p.imports.map Binding.name).Nodup
  identifiers : ∀ name ∈ p.name :: p.imports.map Binding.name,
    IsIdentifier name ∧ name ≠ "require" ∧ name ≠ "module"
  specifiers : ∀ b ∈ p.imports, '\'' ∉ b.specifier.toList ∧ '\\' ∉ b.specifier.toList ∧
    '\r' ∉ b.specifier.toList ∧ '\n' ∉ b.specifier.toList

namespace Program

/-! ## The tokens of a line -/

/-- The tokens of the line of an import. -/
def importTokens (format : Format) (b : Binding) : List Token :=
  match format with
  | .esm => [.word "import", .word b.name, .word "from", .quoted b.specifier, .mark ';']
  | .cjs => [.word "const", .word b.name, .mark '=', .word "require", .mark '(',
      .quoted b.specifier, .mark ')', .mark ';']

/-- The tokens of the names of a sum, each with the mark behind it. -/
def termTokens (names : List String) : List Token :=
  names.flatMap fun name => [.word name, .mark '+']

/-- The tokens of the line that binds a program's name. -/
def constTokens (p : Program) : List Token :=
  [.word "const", .word p.name, .mark '='] ++ termTokens (p.imports.map Binding.name) ++
    [.literal p.text] ++ [.mark ';']

/-- The tokens of the line that exports a name. -/
def exportTokens (format : Format) (name : String) : List Token :=
  match format with
  | .esm => [.word "export", .word "default", .word name, .mark ';']
  | .cjs => [.word "module", .mark '.', .word "exports", .mark '=', .word name, .mark ';']

/-! ## The lines that are written -/

theorem exists_piece_importLine (format : Format) {b : Binding}
    (word : isWord b.name.toList = true)
    (plain : ∀ c ∈ b.specifier.toList, Token.needsEscape c = false) :
    ∃ line, (importLine format b).toList = line ++ ['\n'] ∧
      Piece line (importTokens format b) := by
  have name : Piece (b.name.toList ++ [' ']) [.word b.name] := .wordSpace word
  have specifier := Piece.quoted plain
  have semicolon : Piece [';'] [.mark ';'] := .mark rfl
  cases format with
  | esm =>
    have importWord : Piece ("import".toList ++ [' ']) [.word "import"] := .wordSpace rfl
    have fromWord : Piece ("from".toList ++ [' ']) [.word "from"] := .wordSpace rfl
    refine ⟨_, ?_, (((importWord.append name).append fromWord).append specifier).append semicolon⟩
    have opening : "import ".toList = "import".toList ++ [' '] := rfl
    have middle : " from '".toList = [' '] ++ ("from".toList ++ [' ']) ++ ['\''] := rfl
    have closing : "';\n".toList = ['\''] ++ [';'] ++ ['\n'] := rfl
    simp only [importLine, String.toList_append, opening, middle, closing, List.append_assoc,
      List.cons_append, List.nil_append]
  | cjs =>
    have constWord : Piece ("const".toList ++ [' ']) [.word "const"] := .wordSpace rfl
    have equals : Piece ['='] [.mark '='] := .mark rfl
    have requireCall : Piece ("require".toList ++ ['(']) [.word "require", .mark '('] :=
      .wordMark rfl rfl
    have bracket : Piece [')'] [.mark ')'] := .mark rfl
    refine ⟨_, ?_, ((((((constWord.append name).append equals).append .space).append
      requireCall).append specifier).append bracket).append semicolon⟩
    have opening : "const ".toList = "const".toList ++ [' '] := rfl
    have middle : " = require('".toList =
        [' '] ++ ['='] ++ [' '] ++ ("require".toList ++ ['(']) ++ ['\''] := rfl
    have closing : "');\n".toList = ['\''] ++ [')'] ++ [';'] ++ ['\n'] := rfl
    simp only [importLine, String.toList_append, opening, middle, closing, List.append_assoc,
      List.cons_append, List.nil_append]

theorem piece_terms {names : List String} (words : ∀ name ∈ names, isWord name.toList = true) :
    Piece (String.join (names.map (· ++ " + "))).toList (termTokens names) := by
  have plus : " + ".toList = [' '] ++ ['+'] ++ [' '] := rfl
  induction names with
  | nil => exact .nil
  | cons name names ih =>
    have head : Piece (name.toList ++ [' '] ++ ['+'] ++ [' ']) [.word name, .mark '+'] :=
      .append (.append (.wordSpace (words name List.mem_cons_self)) (.mark rfl)) .space
    have tail := ih fun other h => words other (List.mem_cons_of_mem _ h)
    rw [List.map_cons, String.join_cons, String.toList_append, String.toList_append, plus,
      ← List.append_assoc, ← List.append_assoc]
    exact head.append tail

theorem exists_piece_constLine {p : Program} (word : isWord p.name.toList = true)
    (words : ∀ name ∈ p.imports.map Binding.name, isWord name.toList = true) :
    ∃ line, ("const " ++ p.name ++ " = " ++ p.expression ++ ";\n").toList = line ++ ['\n'] ∧
      Piece line (constTokens p) := by
  have constWord : Piece ("const".toList ++ [' ']) [.word "const"] := .wordSpace rfl
  have name : Piece (p.name.toList ++ [' ']) [.word p.name] := .wordSpace word
  have equals : Piece ['='] [.mark '='] := .mark rfl
  have semicolon : Piece [';'] [.mark ';'] := .mark rfl
  refine ⟨_, ?_, (((((constWord.append name).append equals).append .space).append
    (piece_terms words)).append (.literal p.text)).append semicolon⟩
  have terms : p.imports.map (fun b => b.name ++ " + ") =
      (p.imports.map Binding.name).map (· ++ " + ") := by
    rw [List.map_map]; rfl
  have opening : "const ".toList = "const".toList ++ [' '] := rfl
  have middle : " = ".toList = [' '] ++ ['='] ++ [' '] := rfl
  have closing : ";\n".toList = [';'] ++ ['\n'] := rfl
  simp only [expression, String.toList_append, terms, opening, middle, closing,
    String.toList_ofList, List.append_assoc, List.cons_append, List.nil_append]

theorem piece_exportLine (format : Format) {name : String} (word : isWord name.toList = true) :
    Piece (exportLine format name).toList (exportTokens format name) := by
  have exported : Piece (name.toList ++ [';']) [.word name, .mark ';'] := .wordMark word rfl
  have closing : ";".toList = [';'] := rfl
  cases format with
  | esm =>
    have exportWord : Piece ("export".toList ++ [' ']) [.word "export"] := .wordSpace rfl
    have defaultWord : Piece ("default".toList ++ [' ']) [.word "default"] := .wordSpace rfl
    have opening : "export default ".toList =
        ("export".toList ++ [' ']) ++ ("default".toList ++ [' ']) := rfl
    rw [exportLine_esm, String.toList_append, String.toList_append, opening, closing,
      List.append_assoc _ name.toList]
    exact (exportWord.append defaultWord).append exported
  | cjs =>
    have moduleDot : Piece ("module".toList ++ ['.']) [.word "module", .mark '.'] :=
      .wordMark rfl rfl
    have exportsWord : Piece ("exports".toList ++ [' ']) [.word "exports"] := .wordSpace rfl
    have equals : Piece ['='] [.mark '='] := .mark rfl
    have opening : "module.exports = ".toList =
        ("module".toList ++ ['.']) ++ ("exports".toList ++ [' ']) ++ ['='] ++ [' '] := rfl
    rw [exportLine_cjs, String.toList_append, String.toList_append, opening, closing,
      List.append_assoc _ name.toList]
    exact (((moduleDot.append exportsWord).append equals).append .space).append exported

end Program

namespace Script

/-! ## Reading lines -/

theorem readSum_terms (names : List String) (text : String) :
    readSum (Program.termTokens names ++ [.literal text, .mark ';']) = some (names, text) := by
  induction names with
  | nil => rfl
  | cons name names ih =>
    have tokens : Program.termTokens (name :: names) =
        .word name :: .mark '+' :: Program.termTokens names := rfl
    rw [tokens, List.cons_append, List.cons_append, readSum, ih]
    rfl

theorem readLine_importTokens (format : Format) (b : Binding) :
    readLine format (Program.importTokens format b) = some (.imports b) := by
  cases format <;> rfl

theorem readLine_exportTokens (format : Format) (name : String) :
    readLine format (Program.exportTokens format name) = some (.exports name) := by
  cases format <;> rfl

theorem readLine_constTokens (format : Format) (p : Program) :
    readLine format (Program.constTokens p) =
      some (.binds p.name (p.imports.map Binding.name) p.text) := by
  have sum := readSum_terms (p.imports.map Binding.name) p.text
  have tokens : Program.constTokens p = .word "const" :: .word p.name :: .mark '=' ::
      (Program.termTokens (p.imports.map Binding.name) ++ [.literal p.text, .mark ';']) := by
    rw [Program.constTokens, List.append_assoc, List.append_assoc]; rfl
  rw [tokens]
  generalize Program.termTokens _ ++ _ = rest at sum ⊢
  unfold readLine
  split
  next h => exact absurd (List.cons.inj h).1 (by decide)
  next h => cases h; cases sum
  next h => exact absurd (List.cons.inj h).1 (by decide)
  next h => exact absurd (List.cons.inj h).1 (by decide)
  next h => cases h; rw [sum]; rfl
  next _ _ _ other _ _ _ _ => exact absurd rfl (other _ _)

theorem readLines_append {format : Format} {line : List Char} {tokens : List Token} {l : Line}
    (piece : Piece line tokens) (read : readLine format tokens = some l) (rest : List Char) :
    readLines format (line ++ '\n' :: rest) = (readLines format rest).map (l :: ·) := by
  rw [readLines, readLines, List.splitOn_append_cons_self_of_not_mem piece.unbroken,
    List.mapM_cons, piece.all_eq, Option.bind_some, read]
  cases (rest.splitOn '\n').mapM fun line => (Token.all line).bind (readLine format) <;> rfl

theorem readLines_single {format : Format} {line : List Char} {tokens : List Token} {l : Line}
    (piece : Piece line tokens) (read : readLine format tokens = some l) :
    readLines format line = some [l] := by
  rw [readLines, List.splitOn_eq_singleton piece.unbroken, List.mapM_cons, piece.all_eq,
    Option.bind_some, read]
  rfl

theorem readLines_importLines (format : Format) (imports : List Binding) (rest : List Char)
    (words : ∀ b ∈ imports, isWord b.name.toList = true)
    (plain : ∀ b ∈ imports, ∀ c ∈ b.specifier.toList, Token.needsEscape c = false) :
    readLines format ((String.join (imports.map (Program.importLine format))).toList ++ rest) =
      (readLines format rest).map (imports.map Line.imports ++ ·) := by
  induction imports with
  | nil =>
    show readLines format rest = _
    cases readLines format rest <;> rfl
  | cons b imports ih =>
    obtain ⟨line, written, piece⟩ := Program.exists_piece_importLine format
      (words b List.mem_cons_self) (plain b List.mem_cons_self)
    rw [List.map_cons, String.join_cons, String.toList_append, written, List.append_assoc,
      List.append_assoc, List.singleton_append,
      readLines_append piece (readLine_importTokens format b),
      ih (fun other h => words other (List.mem_cons_of_mem _ h))
        (fun other h => plain other (List.mem_cons_of_mem _ h)), Option.map_map]
    rfl

/-- The lines of imports, followed by the two others, are a script. -/
theorem ofLines?_lines (imports : List Binding) (name : String) (terms : List String)
    (text exported : String) :
    ofLines? (imports.map Line.imports ++ [.binds name terms text, .exports exported]) =
      some ⟨imports, name, terms, text, exported⟩ := by
  induction imports with
  | nil => rfl
  | cons b imports ih =>
    rw [List.map_cons, List.cons_append, ofLines?, ih]
    rfl

end Script

namespace Program

/-- The script that a program stands for. -/
def script (p : Program) : Script :=
  ⟨p.imports, p.name, p.imports.map Binding.name, p.text, p.name⟩

theorem Emittable.plain {p : Program} (h : p.Emittable) :
    ∀ b ∈ p.imports, ∀ c ∈ b.specifier.toList, Token.needsEscape c = false := by
  intro b hb c hc
  obtain ⟨quote, backslash, carriageReturn, lineFeed⟩ := h.specifiers b hb
  have other : ∀ d, d ∉ b.specifier.toList → (c == d) = false := by
    intro d hd
    rw [beq_eq_false_iff_ne]
    rintro rfl
    exact hd hc
  rw [Token.needsEscape, other _ quote, other _ backslash, other _ carriageReturn,
    other _ lineFeed]
  rfl

/-- What a program is written as is read line by line, if its names are words and its specifiers can
stand between single quotes. -/
theorem readLines_render_of_plain {p : Program}
    (words : ∀ name ∈ p.name :: p.imports.map Binding.name, isWord name.toList = true)
    (plain : ∀ b ∈ p.imports, ∀ c ∈ b.specifier.toList, Token.needsEscape c = false)
    (format : Format) :
    Script.readLines format (p.render format).toList =
      some (p.imports.map Line.imports ++
        [.binds p.name (p.imports.map Binding.name) p.text, .exports p.name]) := by
  have own := words p.name List.mem_cons_self
  have theirs : ∀ name ∈ p.imports.map Binding.name, isWord name.toList = true :=
    fun name hn => words name (List.mem_cons_of_mem _ hn)
  obtain ⟨line, written, piece⟩ := exists_piece_constLine own theirs
  have split : (p.render format).toList =
      (String.join (p.imports.map (importLine format))).toList ++
        (line ++ '\n' :: (exportLine format p.name).toList) := by
    rw [← List.singleton_append, ← List.append_assoc line, ← written, ← String.toList_append,
      ← String.toList_append]
    simp only [render, String.append_assoc]
  rw [split, Script.readLines_importLines format p.imports _
      (fun b hb => theirs b.name (List.mem_map_of_mem hb)) plain,
    Script.readLines_append piece (Script.readLine_constTokens format p),
    Script.readLines_single (piece_exportLine format own)
      (Script.readLine_exportTokens format p.name)]
  rfl

theorem readLines_render {p : Program} (h : p.Emittable) (format : Format) :
    Script.readLines format (p.render format).toList =
      some (p.imports.map Line.imports ++
        [.binds p.name (p.imports.map Binding.name) p.text, .exports p.name]) :=
  readLines_render_of_plain (fun name hn => (h.identifiers name hn).1.1) h.plain format

/-- What a program is written as is read back as its script. -/
theorem read_render {p : Program} (h : p.Emittable) (format : Format) :
    Script.read? format (p.render format) = some p.script := by
  have identifiers : ∀ name ∈ p.script.names, IsIdentifier name :=
    fun name hn => (h.identifiers name hn).1
  rw [Script.read?, readLines_render h, Option.bind_eq_bind, Option.bind_some,
    Script.ofLines?_lines, Option.bind_eq_bind, Option.bind_some]
  exact if_pos identifiers

end Program

end StyleModule
