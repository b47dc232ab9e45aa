import StyleModule.Css.Comment
import StyleModule.Text.Blank
import StyleModule.Text.Search

/-!
# Import statements

An import statement begins with the word `@import`, in any letter case, with a blank after it, and
runs to the next semicolon, which belongs to it, or to the end of the text. What it names is the rest
of it after the blanks and an opening `url(`, its quotes and closing brackets left out; a condition
behind the name is taken for part of the name.

The statements of a text are found from the left, each from where the one before it ended.
-/

namespace StyleModule

/-- The word that an import statement begins with. -/
def importWord : List Char := "@import".toList

/-- What an address may be wrapped in. -/
def urlWord : List Char := "url(".toList

/-- An import statement, as written. -/
structure Statement where
  text : List Char
  deriving DecidableEq, Repr

namespace Statement

/-- Does an import statement begin here? -/
def startsAt (s : List Char) : Bool :=
  match Text.afterAnyCase? importWord s with
  | some (c :: _) => Text.isBlank c
  | _ => false

/-- The text through its first semicolon. -/
def throughSemicolon (s : List Char) : List Char :=
  s.takeWhile (· ≠ ';') ++ (s.dropWhile (· ≠ ';')).take 1

/-- The text after its first semicolon. -/
def afterSemicolon (s : List Char) : List Char := (s.dropWhile (· ≠ ';')).drop 1

/-- The text through its first semicolon and the text after it are the text. -/
theorem throughSemicolon_append (s : List Char) :
    throughSemicolon s ++ afterSemicolon s = s := by
  rw [throughSemicolon, afterSemicolon, List.append_assoc, List.take_append_drop,
    List.takeWhile_append_dropWhile]

theorem afterSemicolon_shorter (c : Char) (s : List Char) :
    (afterSemicolon (c :: s)).length < (c :: s).length := by
  have h := (List.dropWhile_suffix (l := c :: s) (fun x => decide (x ≠ ';'))).length_le
  simp only [afterSemicolon, List.length_drop, List.length_cons] at h ⊢
  omega

/-- The import statements of a text, in order. -/
def all : List Char → List Statement
  | [] => []
  | c :: s =>
    if startsAt (c :: s) then ⟨throughSemicolon (c :: s)⟩ :: all (afterSemicolon (c :: s))
    else all s
termination_by s => s.length
decreasing_by
  · exact afterSemicolon_shorter c s
  · exact Nat.lt_succ_self s.length

/-- A text without one blank it begins with, if it begins with one. -/
def dropBlank : List Char → List Char
  | [] => []
  | c :: s => if Text.isBlank c then s else c :: s

/-- A text without the closing bracket it begins with, if it begins with one. -/
def dropBracket : List Char → List Char
  | [] => []
  | c :: s => if c = ')' then s else c :: s

/-- What the statement names, with the quotes and brackets that still stand in it: what remains
after the word, all blanks, an opening `url(` with up to two blanks, and a closing bracket, without
the semicolon. -/
def clause (statement : Statement) : List Char :=
  let s := Text.dropBlanks (statement.text.drop importWord.length)
  let s :=
    match Text.afterAnyCase? urlWord s with
    | some inner => dropBlank (dropBlank inner)
    | none => s
  (dropBracket s).takeWhile (· ≠ ';')

/-- The address that the statement names. -/
def url (statement : Statement) : List Char :=
  statement.clause.filter fun c => !Css.isQuote c && c != ')'

end Statement

/-- What an import statement leads to: an address of the network, a file of a package, or a file of
the project's own. -/
inductive ImportTarget where
  | remote
  | package
  | file
  deriving DecidableEq, Repr

/-- Is the address of a statement one of the network? It is where `url(` is followed by a scheme that
begins with `http`, or by two slashes, in any letter case, quotes and blanks set aside. -/
def isRemote (statement : List Char) : Bool :=
  let s := statement.map Char.toLower
  let compact := s.filter fun c => !Css.isQuote c && !Text.isBlank c
  Text.contains urlWord s &&
    (Text.contains "url(http".toList compact || Text.contains "url(//".toList compact)

/-- What a statement that names `url` leads to. A tilde in front stands for a package. -/
def ImportTarget.of (statement url : List Char) : ImportTarget :=
  if isRemote statement then .remote
  else if url.head? = some '~' then .package
  else .file

/-- Does the statement lead to a file of the project? Only such a statement becomes an import. -/
def Statement.IsLocal (statement : Statement) : Prop :=
  ImportTarget.of statement.text statement.url = .file

instance (statement : Statement) : Decidable statement.IsLocal :=
  inferInstanceAs (Decidable (_ = _))

end StyleModule
