import StyleModule.Optimization
import StyleModule.Text.Blank
import StyleModule.Text.Search

/-!
# Compact stylesheets

An optimizer for stylesheets of the plainest kind: style rules without comments, strings or at-rules,
whose selectors are compounds joined by a blank or by `>`. Rules without declarations are dropped,
values are put in their shortest form, declarations that some browsers know under a name of their
own are given under that name too, declarations for all four sides of a box come after the others of
their rule, and the rules are written without a blank that could be missed, or, where that is not
asked for, with a line for each declaration.

The one mistake that is looked for is a class without a name, that is, a dot before a dot. A text of
nothing but blanks is handed back as it is.
-/

namespace StyleModule.Css

/-- A property and the value it is given. -/
structure Declaration where
  property : List Char
  value : List Char
  deriving DecidableEq, Repr

/-- A style rule. Each selector is a list of words, a word being a compound or the sign `>`. -/
structure StyleRule where
  selectors : List (List (List Char))
  declarations : List Declaration
  deriving DecidableEq, Repr

/-! ## Reading -/

/-- The words of a selector. -/
def selectorWords (s : List Char) : List (List Char) :=
  ((s.flatMap fun c => if c = '>' then [' ', '>', ' '] else [c]).splitOnP Text.isBlank).filter
    (· ≠ [])

/-- The declaration that a text writes, if it holds a colon. -/
def Declaration.ofText? (s : List Char) : Option Declaration :=
  (Text.cut? [':'] s).map fun (property, value) => ⟨Text.trim property, Text.trim value⟩

/-- The rule that a text without its closing brace writes, if it holds an opening brace. -/
def StyleRule.ofText? (s : List Char) : Option StyleRule :=
  (Text.cut? ['{'] s).map fun (prelude, body) =>
    ⟨(prelude.splitOn ',').map selectorWords, (body.splitOn ';').filterMap Declaration.ofText?⟩

/-- The rules of a stylesheet. -/
def styleRules (css : List Char) : List StyleRule := (css.splitOn '}').filterMap StyleRule.ofText?

/-! ## Shortening, prefixing and ordering -/

/-- The values that have a shorter form. -/
def shorterValues : List (Declaration × List Char) :=
  [(⟨"color".toList, "#ff0000".toList⟩, "red".toList),
    (⟨"margin".toList, "0px".toList⟩, "0".toList)]

/-- A declaration with its value in the shortest form. -/
def Declaration.shorten (d : Declaration) : Declaration :=
  match shorterValues.lookup d with
  | some value => { d with value }
  | none => d

/-- The properties that some browsers know under a name of their own, with that name. -/
def vendorNames : List (List Char × List Char) :=
  [("user-select".toList, "-webkit-user-select".toList)]

/-- A declaration, after the same under the name that some browsers know it by. -/
def Declaration.withVendor (d : Declaration) : List Declaration :=
  match vendorNames.lookup d.property with
  | some name => [{ d with property := name }, d]
  | none => [d]

/-- The properties that speak for all four sides of a box at once. -/
def boxProperties : List (List Char) := ["margin".toList]

/-- Whether a declaration speaks for all four sides of a box at once. -/
def Declaration.isBox (d : Declaration) : Bool := boxProperties.contains d.property

/-- Declarations with those for a box after the others. Each of the two kinds keeps its order. -/
def boxesLast (ds : List Declaration) : List Declaration :=
  ds.filter (fun d => !d.isBox) ++ ds.filter Declaration.isBox

/-- A rule with its declarations shortened, prefixed where that is asked for, and put in order. -/
def StyleRule.refine (vendorPrefixes : Bool) (r : StyleRule) : StyleRule :=
  let declarations := r.declarations.map Declaration.shorten
  { r with
    declarations := boxesLast <|
      if vendorPrefixes then declarations.flatMap Declaration.withVendor else declarations }

/-- The rules that are left to be written. -/
def refineRules (vendorPrefixes : Bool) (rules : List StyleRule) : List StyleRule :=
  (rules.filter fun r => !r.declarations.isEmpty).map (StyleRule.refine vendorPrefixes)

/-! ## Writing -/

/-- Words with a blank only between two compounds. -/
def tightWords : List (List Char) → List Char
  | [] => []
  | [word] => word
  | a :: b :: words =>
    a ++ (if a = ['>'] ∨ b = ['>'] then [] else [' ']) ++ tightWords (b :: words)

/-- A rule without a blank that could be missed. -/
def StyleRule.tight (r : StyleRule) : List Char :=
  [','].intercalate (r.selectors.map tightWords) ++ '{' ::
    [';'].intercalate (r.declarations.map fun d => d.property ++ ':' :: d.value) ++ ['}']

/-- A rule with a line for each declaration. -/
def StyleRule.wide (r : StyleRule) : List Char :=
  ", ".toList.intercalate (r.selectors.map fun words => [' '].intercalate words) ++
    " \x7b\n".toList ++
    (r.declarations.flatMap fun d =>
      "  ".toList ++ d.property ++ ": ".toList ++ d.value ++ ";\n".toList) ++ ['}']

/-- The text of rules. -/
def writeRules (minify : Bool) (rules : List StyleRule) : List Char :=
  if minify then rules.flatMap StyleRule.tight
  else "\n\n".toList.intercalate (rules.map StyleRule.wide) ++ ['\n']

/-! ## Mistakes -/

/-- How many 16-bit units a character takes. -/
def units (c : Char) : Nat := if c.toNat < 0x10000 then 1 else 2

/-- The line and the column at which a text ends, counted from a line and a column on. Lines are
counted from nought, columns in 16-bit units. -/
def position : List Char → (line column : Nat) → Nat × Nat
  | [], line, column => (line, column)
  | '\r' :: '\n' :: s, line, _ => position s (line + 1) 0
  | c :: s, line, column =>
    if c = '\n' ∨ c = '\r' ∨ c = '\x0c' then position s (line + 1) 0
    else position s line (column + units c)

/-- The error that reports a class without a name, whose dot comes after the given text. The column
is that of the second dot, counted from one. -/
def namelessClass (file : Path) (before : List Char) : Diagnostic :=
  let (line, width) := position before 0 0
  let column := width + 2
  ((Diagnostic.error "css" "Optimize CSS"
    ("Expected identifier in class selector, got Delim('.') at " ++ file.text ++ ":" ++
      toString line ++ ":" ++ toString column)).inFile file).located
    (UInt32.ofNat (line + 1)) (UInt32.ofNat column)

/-! ## The optimizer -/

/-- Optimizes a stylesheet of the plain kind. -/
def compact (o : Optimization) : Optimized :=
  let css := o.text.toList
  if Text.allBlank css then { text := some o.text }
  else
    match Text.cut? ['.', '.'] css with
    | some (before, _) => { diagnostics := [namelessClass o.file before] }
    | none =>
      let rules := refineRules o.vendorPrefixes (styleRules css)
      { text := some (String.ofList (writeRules o.minify rules)) }

end StyleModule.Css
