import LosslessCss.Runs
import LosslessCss.Text.WhiteSpace
import LosslessCss.Text.Ascii
import LosslessCss.Source
import LosslessCss.Token
import LosslessCss.Token.Lexeme
import LosslessCss.Token.Reader
import LosslessCss.Tree.Forest
import LosslessCss.Node
import LosslessCss.Statement
import LosslessCss.Parse
import LosslessCss.Parse.Guarded
import LosslessCss.Value.Quoting
import LosslessCss.Value.Compact
import LosslessCss.Value.Split
import LosslessCss.Value.ListScan
import LosslessCss.Value.Decimal
import LosslessCss.Value.Length
import LosslessCss.Value.CheckedDivision
import LosslessCss.Value.LengthScan
import LosslessCss.Text.Escaped
import LosslessCss.Text.Quoted
import LosslessCss.Json
import LosslessCss.Tree.Json
import LosslessCss.Tree.Outline
import LosslessCss.Print
import LosslessCss.Sheet
import LosslessCss.Sheet.Edit
import LosslessCss.Sheet.Walk
import LosslessCss.Sheet.Traversal
import LosslessCss.FileTree
import LosslessCss.Program
import LosslessCss.Process
import LosslessCss.Command.Tokens
import LosslessCss.Command.Outline
import LosslessCss.Command.Options
import LosslessCss.Command.Format
import LosslessCss.Main
import LosslessCss.Proofs.Lexing
import LosslessCss.Proofs.StatementParts
import LosslessCss.Proofs.Replay
import LosslessCss.Proofs.RoundTrip
import LosslessCss.Proofs.Grammar
import LosslessCss.Proofs.Accepting
import LosslessCss.Proofs.Deriving
import LosslessCss.Proofs.Cutting
import LosslessCss.Proofs.Moves
import LosslessCss.Proofs.EditedSheets
import LosslessCss.Proofs.BuiltSheets
import LosslessCss.Proofs.Leniency
import LosslessCss.Proofs.Violations
import LosslessCss.Proofs.Idempotence
import LosslessCss.Proofs.Places
import LosslessCss.Proofs.SpanNesting
import LosslessCss.Proofs.NodeSpans
import LosslessCss.Proofs.FieldEdits
import LosslessCss.Proofs.Shifting
import LosslessCss.Proofs.Concatenation
import LosslessCss.Proofs.Compaction
import LosslessCss.Proofs.Importance
import LosslessCss.Proofs.CompactHeads
import LosslessCss.Proofs.Minimizing
import LosslessCss.Proofs.ParsedNodes
import LosslessCss.Proofs.Kinship
import LosslessCss.Proofs.Relinking
import LosslessCss.Proofs.InPlace
import LosslessCss.Proofs.Walks
import LosslessCss.Proofs.Turns
import LosslessCss.Proofs.Thinning
import LosslessCss.Proofs.ByteScan
import LosslessCss.Proofs.LineTable
import LosslessCss.Proofs.Cursor
import LosslessCss.Proofs.Sessions
import LosslessCss.Proofs.Tiling
import LosslessCss.Proofs.Recovery
import LosslessCss.Proofs.Boundaries
import LosslessCss.Proofs.Playback
import LosslessCss.Proofs.Rewriting
import LosslessCss.Proofs.Lengths
import LosslessCss.Proofs.Revaluing
import LosslessCss.Proofs.RootUnits
import LosslessCss.Proofs.SteadyNodes
import LosslessCss.Proofs.CompactLengths
import LosslessCss.Proofs.Reprinting
import LosslessCss.Proofs.Snapshots
import LosslessCss.Proofs.Traversals
import LosslessCss.Proofs.Quotients
import LosslessCss.Proofs.CheckedDivision
import LosslessCss.Proofs.Stretches
import LosslessCss.Proofs.SettledLengths
import LosslessCss.Proofs.LengthScan
import LosslessCss.Proofs.SpacedUnits
import LosslessCss.Proofs.DeclarationTokens
import LosslessCss.Proofs.ImportantTokens
import LosslessCss.Proofs.ScanPlaces
import LosslessCss.Proofs.UntouchedTokens
import LosslessCss.Proofs.Formatting
import LosslessCss.Proofs.Segments
import LosslessCss.Proofs.OpenBlocks
import LosslessCss.Proofs.Slices
import LosslessCss.Proofs.GuardedParse
import LosslessCss.Proofs.Watching
import LosslessCss.Proofs.CompactTexts
import LosslessCss.Proofs.Addresses
import LosslessCss.Proofs.ReadableHeads
import LosslessCss.Proofs.MinimizedComments
import LosslessCss.Proofs.Levels
import LosslessCss.Proofs.ListItems
import LosslessCss.Proofs.ListPieces
import LosslessCss.Proofs.Rejoining
import LosslessCss.Proofs.Columns
