import Downlevel.Command.Arguments
import Downlevel.Command.Run
import Downlevel.Convert
import Downlevel.Diagnostic
import Downlevel.Dialect
import Downlevel.Directive
import Downlevel.File.Converter
import Downlevel.File.Path
import Downlevel.File.Summary
import Downlevel.File.System
import Downlevel.File.Tree
import Downlevel.Grammar.Body
import Downlevel.Grammar.Build
import Downlevel.Grammar.Lexeme
import Downlevel.Grammar.Rule
import Downlevel.Log
import Downlevel.Lowering.Arrow
import Downlevel.Lowering.Basic
import Downlevel.Lowering.BlockScope
import Downlevel.Lowering.Catalog
import Downlevel.Lowering.Exponent
import Downlevel.Lowering.Object
import Downlevel.Lowering.Param
import Downlevel.Lowering.Template
import Downlevel.Main
import Downlevel.Module
import Downlevel.Parse
import Downlevel.Pass.Plugin
import Downlevel.Pass.Sequence
import Downlevel.Pass.Walk
import Downlevel.Peg.Basic
import Downlevel.Peg.Run
import Downlevel.Printer.Output
import Downlevel.Printer.Write
import Downlevel.Proofs.Absence
import Downlevel.Proofs.Action
import Downlevel.Proofs.Alike
import Downlevel.Proofs.Allocation
import Downlevel.Proofs.Annotations
import Downlevel.Proofs.Appending
import Downlevel.Proofs.Blanks
import Downlevel.Proofs.Calls
import Downlevel.Proofs.Cells
import Downlevel.Proofs.Comments
import Downlevel.Proofs.Commute
import Downlevel.Proofs.Conversion
import Downlevel.Proofs.Delivers
import Downlevel.Proofs.Depth
import Downlevel.Proofs.Directive
import Downlevel.Proofs.DirectoryConversion
import Downlevel.Proofs.Expression
import Downlevel.Proofs.Failing
import Downlevel.Proofs.Features
import Downlevel.Proofs.FirstOffender
import Downlevel.Proofs.Formed
import Downlevel.Proofs.Function
import Downlevel.Proofs.Fusion
import Downlevel.Proofs.History
import Downlevel.Proofs.Hoisting
import Downlevel.Proofs.Idle
import Downlevel.Proofs.InPlace
import Downlevel.Proofs.Layout
import Downlevel.Proofs.Leading
import Downlevel.Proofs.Level
import Downlevel.Proofs.Lexeme
import Downlevel.Proofs.Lifecycle
import Downlevel.Proofs.Listing
import Downlevel.Proofs.Locating
import Downlevel.Proofs.Lookup
import Downlevel.Proofs.Lower
import Downlevel.Proofs.Matching
import Downlevel.Proofs.Opening
import Downlevel.Proofs.Operand
import Downlevel.Proofs.Overwriting
import Downlevel.Proofs.OwnOutput
import Downlevel.Proofs.Parsed
import Downlevel.Proofs.Passes
import Downlevel.Proofs.Pieces
import Downlevel.Proofs.Preserve
import Downlevel.Proofs.PrintedNodes
import Downlevel.Proofs.Ranges
import Downlevel.Proofs.Reachable
import Downlevel.Proofs.Reading
import Downlevel.Proofs.Rebuild
import Downlevel.Proofs.Receiver
import Downlevel.Proofs.Recognize
import Downlevel.Proofs.Reconversion
import Downlevel.Proofs.Recording
import Downlevel.Proofs.Rejection
import Downlevel.Proofs.Reread
import Downlevel.Proofs.Respects
import Downlevel.Proofs.RoundTrip
import Downlevel.Proofs.RunOutcome
import Downlevel.Proofs.SameShape
import Downlevel.Proofs.Settled
import Downlevel.Proofs.Shape
import Downlevel.Proofs.SourceLayout
import Downlevel.Proofs.Spans
import Downlevel.Proofs.Statement
import Downlevel.Proofs.Steady
import Downlevel.Proofs.Sweep
import Downlevel.Proofs.TemplateValue
import Downlevel.Proofs.Transparency
import Downlevel.Proofs.Tree
import Downlevel.Proofs.Unfolding
import Downlevel.Proofs.Walk
import Downlevel.Source.Position
import Downlevel.Syntax.Kind
import Downlevel.Syntax.Store
import Downlevel.Syntax.Tree
import Downlevel.Text.CaseTable
import Downlevel.Text.JsonValue
import Downlevel.Text.LetterCase
import Downlevel.Text.Pieces
import Downlevel.Validate
