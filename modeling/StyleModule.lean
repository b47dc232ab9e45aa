import StyleModule.Build
import StyleModule.Component
import StyleModule.Css.Comment
import StyleModule.Css.Compact
import StyleModule.Css.Lexeme
import StyleModule.Css.Scope
import StyleModule.Css.Selector
import StyleModule.Css.Sheet
import StyleModule.Defaults
import StyleModule.Diagnostic
import StyleModule.Fault
import StyleModule.Import.Scan
import StyleModule.Import.Statement
import StyleModule.Json.Fields
import StyleModule.Json.Printer
import StyleModule.Json.Quote
import StyleModule.Json.Reader
import StyleModule.Json.Value
import StyleModule.Name.Binding
import StyleModule.Name.Identifier
import StyleModule.Name.Set
import StyleModule.Optimization
import StyleModule.Path.Basic
import StyleModule.Path.Canonical
import StyleModule.Path.Relative
import StyleModule.Product
import StyleModule.Program
import StyleModule.Source
import StyleModule.Specifier
import StyleModule.Text.Blank
import StyleModule.Text.LetterCase
import StyleModule.Text.Search
import StyleModule.Proofs.Name.Fresh
import StyleModule.Proofs.Name.Legal
import StyleModule.Proofs.Import.Binds
import StyleModule.Proofs.Build.Drafted
import StyleModule.Proofs.Build.Names
import StyleModule.Proofs.Build.Endings
import StyleModule.Proofs.Build.Optimized
import StyleModule.Proofs.Build.Modes
import StyleModule.Proofs.Json.Body
import StyleModule.Proofs.Json.Written
import StyleModule.Proofs.Json.Lossless
import StyleModule.Proofs.Json.Records
import StyleModule.Proofs.Program.Language
import StyleModule.Proofs.Program.Tokens
import StyleModule.Proofs.Program.Meaning
import StyleModule.Proofs.Path.Canonical
import StyleModule.Proofs.Path.Relative
import StyleModule.Proofs.Path.Shared
import StyleModule.Proofs.Build.Specifiers
import StyleModule.Proofs.Program.Lines
import StyleModule.Proofs.Build.Lines
import StyleModule.Proofs.Css.Reading
import StyleModule.Proofs.Css.Pieces
import StyleModule.Proofs.Css.Items
import StyleModule.Proofs.Css.Idle
import StyleModule.Proofs.Css.Scoped
import StyleModule.Proofs.Css.Ends
import StyleModule.Proofs.Css.Notes
import StyleModule.Proofs.Css.Classes
import StyleModule.Proofs.Css.Harmless
import StyleModule.Proofs.Css.Outside
import StyleModule.Proofs.Css.Placement
import StyleModule.Proofs.Css.Marks
import StyleModule.Proofs.Css.Shadow
import StyleModule.Proofs.Css.Tree
import StyleModule.Proofs.Css.TreeScope
import StyleModule.Proofs.Css.Live
import StyleModule.Proofs.Css.Stretches
import StyleModule.Proofs.Css.Uncommented
import StyleModule.Proofs.Css.Quotes
import StyleModule.Proofs.Css.Sealed
import StyleModule.Proofs.Css.Kept
import StyleModule.Proofs.Css.Unclosed
import StyleModule.Proofs.Css.Sequence
import StyleModule.Proofs.Text.Margins
import StyleModule.Proofs.Text.Squeeze
import StyleModule.Proofs.Text.Join
import StyleModule.Proofs.Text.Removal
import StyleModule.Proofs.Text.Pattern
import StyleModule.Proofs.Import.Parts
import StyleModule.Proofs.Import.Pattern
import StyleModule.Proofs.Import.Turns
import StyleModule.Proofs.Import.Remainder
import StyleModule.Proofs.Import.Head
import StyleModule.Proofs.Import.Commute
import StyleModule.Proofs.Import.Padding
import StyleModule.Proofs.Import.Listed
import StyleModule.Proofs.Import.Spaced
import StyleModule.Proofs.Import.History
import StyleModule.Proofs.Import.Elsewhere
import StyleModule.Proofs.Path.Leading
import StyleModule.Proofs.Specifier.Parts
import StyleModule.Proofs.Specifier.Explicit
import StyleModule.Proofs.Specifier.Query
import StyleModule.Proofs.Path.Normal
import StyleModule.Proofs.Path.Shortest
import StyleModule.Proofs.Name.Words
import StyleModule.Proofs.Name.Settled
import StyleModule.Proofs.Build.Declared
import StyleModule.Proofs.Css.Isolation
import StyleModule.Proofs.Source.Settings
