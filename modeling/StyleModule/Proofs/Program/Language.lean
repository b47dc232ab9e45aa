import StyleModule.Name.Identifier
import StyleModule.Program
import StyleModule.Proofs.Json.Body

/-!
# The language of generated programs

Programs seen from the side of those who run them: each line of a text is cut into tokens, the lines
are read as a script in one of the two formats, and a script is run with the texts that other
modules export. Nothing here looks at how a program is written; the module `Program.Meaning` beside
this one compares the two sides.

A script binds each name once, and refers to a name only after it is bound. In the format `cjs` the
two names that a script is given, `require` and `module`, count as bound from the start, so a script
that binds one of them does not run.

Outside ASCII every character that is no blank may stand in a name. That is more than the language
allows, so what is shown for all names here holds for all identifiers of the language.
-/

namespace StyleModule

/-! ## Names -/

/-- A character that a name begins with. -/
def opensWord (c : Char) : Bool :=
  c.isAlpha || c == '_' || c == '$' || (128 ≤ c.toNat && !Text.isBlank c)

/-- A character that a name goes on with. -/
def continuesWord (c : Char) : Bool := opensWord c || c.isDigit

/-- A text that is one word of the language, be it a name or a keyword. -/
def isWord : List Char → Bool
  | [] => false
  | c :: s => opensWord c && s.all continuesWord

/-- An identifier: a word that is no keyword. -/
def IsIdentifier (name : String) : Prop := isWord name.toList = true ∧ name ∉ Name.keywords

instance (name : String) : Decidable (IsIdentifier name) :=
  inferInstanceAs (Decidable (_ ∧ _))

/-! ## Tokens -/

/-- A token: a word, a mark, a text between single quotes as it stands, or a text between double
quotes with its escapes resolved. -/
inductive Token where
  | word (name : String)
  | mark (c : Char)
  | quoted (text : String)
  | literal (text : String)
  deriving DecidableEq, Repr

namespace Token

/-- A character that is a token of its own. -/
def isMark (c : Char) : Bool := c == '=' || c == '+' || c == ';' || c == '.' || c == '(' || c == ')'

/-- A character that may not stand between single quotes as it is. -/
def needsEscape (c : Char) : Bool := c == '\'' || c == '\\' || c == '\r' || c == '\n'

/-- The token that begins with a character, and what follows it. -/
def next? (c : Char) (s : List Char) : Option (Token × List Char) :=
  if opensWord c then
    some (.word (String.ofList (c :: s.takeWhile continuesWord)), s.dropWhile continuesWord)
  else if isMark c then some (.mark c, s)
  else if c = '\'' then
    match s.dropWhile fun d => !needsEscape d with
    | '\'' :: rest => some (.quoted (String.ofList (s.takeWhile fun d => !needsEscape d)), rest)
    | _ => none
  else if c = '"' then do
    let (body, rest) ← Json.readBody s
    some (.literal (String.ofList (← Json.unescape? body)), rest)
  else none

theorem next?_length_le {c : Char} {s rest : List Char} {token : Token}
    (h : next? c s = some (token, rest)) : rest.length ≤ s.length := by
  rw [next?] at h
  split at h
  · cases h; exact (List.dropWhile_suffix _).length_le
  split at h
  · cases h; exact Nat.le_refl _
  split at h
  · split at h
    next closed =>
      cases h
      have shorter := (List.dropWhile_suffix (l := s) fun d => !needsEscape d).length_le
      rw [closed, List.length_cons] at shorter
      omega
    next => cases h
  split at h
  · obtain ⟨⟨body, tail⟩, read, h⟩ := Option.bind_eq_some_iff.1 h
    obtain ⟨text, _, h⟩ := Option.bind_eq_some_iff.1 h
    cases h
    exact Json.readBody_length_le read
  · cases h

/-- The tokens of a text, if it has no other parts but tokens and blanks. -/
def all : List Char → Option (List Token)
  | [] => some []
  | c :: s =>
    if Text.isBlank c then all s
    else
      match _h : next? c s with
      | some (token, rest) => (all rest).map (token :: ·)
      | none => none
termination_by s => s.length
decreasing_by
  · exact Nat.lt_succ_self _
  · exact Nat.lt_succ_of_le (next?_length_le _h)

end Token

/-! ## Scripts -/

/-- A line of a script: an import, a name bound to a sum of names and a text, or an export. -/
inductive Line where
  | imports (binding : Binding)
  | binds (name : String) (terms : List String) (text : String)
  | exports (name : String)
  deriving DecidableEq, Repr

/-- A script: a line for each module it imports, the line that binds its own name to a sum, and the
line that exports a name. -/
structure Script where
  imports : List Binding
  name : String
  terms : List String
  text : String
  exported : String
  deriving DecidableEq, Repr

namespace Script

/-- A sum of names that ends in a text, with the semicolon behind it. -/
def readSum : List Token → Option (List String × String)
  | .word name :: .mark '+' :: rest => (readSum rest).map fun (terms, text) => (name :: terms, text)
  | [.literal text, .mark ';'] => some ([], text)
  | _ => none

/-- The line that tokens make up. -/
def readLine : Format → List Token → Option Line
  | .esm, [.word "import", .word name, .word "from", .quoted specifier, .mark ';'] =>
    some (.imports ⟨name, specifier⟩)
  | .cjs, [.word "const", .word name, .mark '=', .word "require", .mark '(', .quoted specifier,
      .mark ')', .mark ';'] =>
    some (.imports ⟨name, specifier⟩)
  | .esm, [.word "export", .word "default", .word name, .mark ';'] => some (.exports name)
  | .cjs, [.word "module", .mark '.', .word "exports", .mark '=', .word name, .mark ';'] =>
    some (.exports name)
  | _, .word "const" :: .word name :: .mark '=' :: sum =>
    (readSum sum).map fun (terms, text) => .binds name terms text
  | _, _ => none

/-- The script that lines make up. -/
def ofLines? : List Line → Option Script
  | [.binds name terms text, .exports exported] => some ⟨[], name, terms, text, exported⟩
  | .imports binding :: lines =>
    (ofLines? lines).map fun p => { p with imports := binding :: p.imports }
  | _ => none

/-- The names that a script binds. -/
def names (p : Script) : List String := p.name :: p.imports.map Binding.name

/-- The lines of a text. -/
def readLines (format : Format) (text : List Char) : Option (List Line) :=
  (text.splitOn '\n').mapM fun line => (Token.all line).bind (readLine format)

/-- Reads a script line by line. The names it binds have to be identifiers. -/
def read? (format : Format) (text : String) : Option Script := do
  let script ← ofLines? (← readLines format text.toList)
  if ∀ name ∈ script.names, IsIdentifier name then some script else none

/-! ## Running a script -/

/-- The names that are bound, with their values. -/
abbrev Scope := List (String × String)

/-- The names that a script is given. -/
def given : Format → List String
  | .esm => []
  | .cjs => ["require", "module"]

/-- Binds a name, if it is not bound already. -/
def Scope.bind (format : Format) (scope : Scope) (name value : String) : Option Scope :=
  if name ∈ given format ∨ name ∈ scope.map Prod.fst then none else some (scope ++ [(name, value)])

/-- Binds the names of imports to what the modules export. -/
def Scope.bindImports (format : Format) (files : String → String) :
    Scope → List Binding → Option Scope
  | scope, [] => some scope
  | scope, b :: bindings => do
    bindImports format files (← scope.bind format b.name (files b.specifier)) bindings

/-- What a script exports, where `files` says what other modules export. -/
def run? (format : Format) (files : String → String) (p : Script) : Option String := do
  let scope ← Scope.bindImports format files [] p.imports
  let values ← p.terms.mapM fun name => scope.lookup name
  let scope ← scope.bind format p.name (String.join values ++ p.text)
  scope.lookup p.exported

/-- What the script that a text writes exports. -/
def runText? (format : Format) (files : String → String) (text : String) : Option String :=
  (read? format text).bind (run? format files)

end Script

end StyleModule
