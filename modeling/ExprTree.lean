import ExprTree.Diagnostic
import ExprTree.Grammar.Basic
import ExprTree.Grammar.Description
import ExprTree.Grammar.Letters
import ExprTree.Grammar.Operators
import ExprTree.Json.Basic
import ExprTree.Json.Number
import ExprTree.Json.Quoted
import ExprTree.Json.Reader
import ExprTree.Json.Writer
import ExprTree.Keyed
import ExprTree.Node.Basic
import ExprTree.Node.Decode
import ExprTree.Node.Display
import ExprTree.Node.Tag
import ExprTree.Node.Wire
import ExprTree.Number.Binary64
import ExprTree.Number.Layout
import ExprTree.Number.Numeral
import ExprTree.Number.Shortest
import ExprTree.Parse.Basic
import ExprTree.Parse.Error
import ExprTree.Parse.Expression
import ExprTree.Parse.Lexeme
import ExprTree.Parse.Operand
import ExprTree.Parse.Primary
import ExprTree.Parse.Rule
import ExprTree.Parse.Source
import ExprTree.Parse.Stack
import ExprTree.Proofs.Accounting
import ExprTree.Proofs.Agreement
import ExprTree.Proofs.Atoms
import ExprTree.Proofs.BlankRuns
import ExprTree.Proofs.Boundaries
import ExprTree.Proofs.Bounds
import ExprTree.Proofs.Brackets
import ExprTree.Proofs.BranchMark
import ExprTree.Proofs.Calls
import ExprTree.Proofs.Collected
import ExprTree.Proofs.Continued
import ExprTree.Proofs.CutPlaces
import ExprTree.Proofs.Cuts
import ExprTree.Proofs.Decimals
import ExprTree.Proofs.DescriptionTexts
import ExprTree.Proofs.Descriptions
import ExprTree.Proofs.Embedded
import ExprTree.Proofs.Endless
import ExprTree.Proofs.Ends
import ExprTree.Proofs.Firm
import ExprTree.Proofs.Flat
import ExprTree.Proofs.Folded
import ExprTree.Proofs.Footing
import ExprTree.Proofs.Forward
import ExprTree.Proofs.Glued
import ExprTree.Proofs.Histories
import ExprTree.Proofs.IdleMark
import ExprTree.Proofs.JsonText
import ExprTree.Proofs.KeyOrder
import ExprTree.Proofs.Layouts
import ExprTree.Proofs.Lexemes
import ExprTree.Proofs.Literals
import ExprTree.Proofs.Locations
import ExprTree.Proofs.Lockstep
import ExprTree.Proofs.LongestMatch
import ExprTree.Proofs.NamedArguments
import ExprTree.Proofs.Numerals
import ExprTree.Proofs.Origins
import ExprTree.Proofs.Parts
import ExprTree.Proofs.Positional
import ExprTree.Proofs.Precedence
import ExprTree.Proofs.Print
import ExprTree.Proofs.Printed
import ExprTree.Proofs.Progress
import ExprTree.Proofs.Quotations
import ExprTree.Proofs.QuotedTexts
import ExprTree.Proofs.Reading
import ExprTree.Proofs.Results
import ExprTree.Proofs.RoundTrip
import ExprTree.Proofs.Sequences
import ExprTree.Proofs.Settled
import ExprTree.Proofs.Shapes
import ExprTree.Proofs.SideBySide
import ExprTree.Proofs.Slots
import ExprTree.Proofs.Spelling
import ExprTree.Proofs.Stacks
import ExprTree.Proofs.Standard
import ExprTree.Proofs.Steps
import ExprTree.Proofs.Surrounded
import ExprTree.Proofs.Termination
import ExprTree.Proofs.TrailingColon
import ExprTree.Proofs.Walk
import ExprTree.Proofs.Wire
import ExprTree.Source.Cursor
import ExprTree.Source.Location
import ExprTree.Version
