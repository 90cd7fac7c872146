import GrammarFragments.Ascii
import GrammarFragments.Context.Basic
import GrammarFragments.Context.Exchange
import GrammarFragments.Context.Snapshot
import GrammarFragments.Fragment.Kind
import GrammarFragments.Fragment.Recognizers
import GrammarFragments.Fragment.Request
import GrammarFragments.Host.Session
import GrammarFragments.Lexeme.CharLiteral
import GrammarFragments.Lexeme.QuotedText
import GrammarFragments.Lexeme.StringLiteral
import GrammarFragments.Nesting.Enclosure
import GrammarFragments.Nesting.Machine
import GrammarFragments.Reader.Basic
import GrammarFragments.Reader.Bytes
import GrammarFragments.Reader.HostLexer
import GrammarFragments.Reader.Stepwise
import GrammarFragments.Scan.Basic
import GrammarFragments.Scan.Event
import GrammarFragments.Scan.Restore
import GrammarFragments.Source.Basic
import GrammarFragments.Source.Characters
import GrammarFragments.Source.Places
import GrammarFragments.Text.Hex
import GrammarFragments.Proofs.Simulation.Lexemes
import GrammarFragments.Proofs.Simulation.Recognizers
import GrammarFragments.Proofs.CodePoints
import GrammarFragments.Proofs.Simulation.Remaining
import GrammarFragments.Proofs.Nesting.Depth
import GrammarFragments.Proofs.Snapshots.Codec
import GrammarFragments.Proofs.Snapshots.Histories
import GrammarFragments.Proofs.Memory.StaleTags
import GrammarFragments.Proofs.Attempts
import GrammarFragments.Proofs.Memory.StringFlag
import GrammarFragments.Proofs.Simulation.BulkSearch
import GrammarFragments.Proofs.Spans.Boundaries
import GrammarFragments.Proofs.Spans.Placement
import GrammarFragments.Proofs.Locality
import GrammarFragments.Proofs.Failure
import GrammarFragments.Proofs.Printed.Characters
import GrammarFragments.Proofs.Printed.Lexemes
import GrammarFragments.Proofs.Printed.Items
import GrammarFragments.Proofs.Spans.TokenEnds
import GrammarFragments.Proofs.Printed.Extents
import GrammarFragments.Proofs.Nesting.Braces
import GrammarFragments.Proofs.Nesting.Endings
import GrammarFragments.Proofs.Snapshots.Exactness
import GrammarFragments.Proofs.Snapshots.Interruption
import GrammarFragments.Proofs.Spans.CodeEnds
import GrammarFragments.Proofs.Lexeme.QuotedText
import GrammarFragments.Proofs.Lexeme.StringLiteral
import GrammarFragments.Proofs.Spans.TypeEnds
import GrammarFragments.Proofs.Requests
import GrammarFragments.Proofs.Spans.Delimiters
import GrammarFragments.Proofs.Lexeme.CharLiteral
import GrammarFragments.Proofs.Simulation.Calls
import GrammarFragments.Proofs.Spans.Runs
import GrammarFragments.Proofs.Storage
import GrammarFragments.Proofs.Spans.Slices
import GrammarFragments.Proofs.Termination.Procedures
import GrammarFragments.Proofs.Termination.Recognizers
