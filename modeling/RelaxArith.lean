import RelaxArith.Text
import RelaxArith.Text.Unicode
import RelaxArith.Text.Quoted
import RelaxArith.Text.Path
import RelaxArith.Text.Digest
import RelaxArith.Span
import RelaxArith.Expr
import RelaxArith.Expr.Forms
import RelaxArith.Expr.Equality
import RelaxArith.Expr.Traversal
import RelaxArith.Expr.Fingerprint
import RelaxArith.Token
import RelaxArith.Token.Automaton
import RelaxArith.Token.Stream
import RelaxArith.Expr.Precedence
import RelaxArith.Expr.Parenthesized
import RelaxArith.Expr.Reader
import RelaxArith.Expr.Negation
import RelaxArith.Rules
import RelaxArith.Relax
import RelaxArith.Relax.Checked
import RelaxArith.Expansion
import RelaxArith.Rules.Workspace
import RelaxArith.Host.Lexeme
import RelaxArith.Host.Node
import RelaxArith.Host.Lines
import RelaxArith.Host.Grammar
import RelaxArith.Host.Statements
import RelaxArith.Host.Exchange
import RelaxArith.Host.Scope
import RelaxArith.Host.Marker
import RelaxArith.Host.Imports
import RelaxArith.Host.Layout.Columns
import RelaxArith.Host.Layout.GeneralComment
import RelaxArith.Host.Layout.DocText
import RelaxArith.Host.Layout.DocComment
import RelaxArith.Host.Layout.BuildLines
import RelaxArith.Host.Layout.Page
import RelaxArith.Host.Layout.Expressions
import RelaxArith.Host.Layout.Statements
import RelaxArith.Host.Source
import RelaxArith.Outline
import RelaxArith.Shell.Message
import RelaxArith.Shell.Directory
import RelaxArith.Shell.Flags
import RelaxArith.Shell.Session
import RelaxArith.Shell.Key
import RelaxArith.Shell.LineEditor
import RelaxArith.Shell.Console
import RelaxArith.Shell.SourceTool
import RelaxArith.Main
import RelaxArith.Proofs.Erasure
import RelaxArith.Proofs.Meaning
import RelaxArith.Proofs.Grammar
import RelaxArith.Proofs.Tree
import RelaxArith.Proofs.Stubs
import RelaxArith.Proofs.Equality
import RelaxArith.Proofs.Traversal
import RelaxArith.Proofs.Fingerprint
import RelaxArith.Proofs.Outline
import RelaxArith.Proofs.Parser.Steps
import RelaxArith.Proofs.Parser.Complete
import RelaxArith.Proofs.Parser.Sound
import RelaxArith.Proofs.Scan.Runs
import RelaxArith.Proofs.Scan.Spelling
import RelaxArith.Proofs.Parser.Acceptance
import RelaxArith.Proofs.Parser.Places
import RelaxArith.Proofs.Printing.Fragments
import RelaxArith.Proofs.Printing.Parentheses
import RelaxArith.Proofs.Printing.Formatting
import RelaxArith.Proofs.Printing.Parsed
import RelaxArith.Proofs.Printing.Operands
import RelaxArith.Proofs.Parser.Spans
import RelaxArith.Proofs.Scan.Separation
import RelaxArith.Proofs.Parser.Reading
import RelaxArith.Proofs.Parser.Blame
import RelaxArith.Proofs.Scan.Reports
import RelaxArith.Proofs.Scan.Engine
import RelaxArith.Proofs.Scan.Patterns
import RelaxArith.Proofs.Parser.Persistent
import RelaxArith.Proofs.Parser.Persistence
import RelaxArith.Proofs.Parser.Safety
import RelaxArith.Proofs.Parser.Invocations
import RelaxArith.Proofs.Relaxed
import RelaxArith.Proofs.Leaves
import RelaxArith.Proofs.Consulted
import RelaxArith.Proofs.Masking
import RelaxArith.Proofs.Printing.Relaxed
import RelaxArith.Proofs.Printing.ListForm
import RelaxArith.Proofs.Printing.Negation
import RelaxArith.Proofs.Positions
import RelaxArith.Proofs.Faults
import RelaxArith.Proofs.Batch.Answers
import RelaxArith.Proofs.Batch.Items
import RelaxArith.Proofs.Sharing
import RelaxArith.Proofs.Host.Trees
import RelaxArith.Proofs.Host.Exchange
import RelaxArith.Proofs.Host.Formless
import RelaxArith.Proofs.Host.Literals
import RelaxArith.Proofs.Host.Lexemes
import RelaxArith.Proofs.Host.RoundTrip
import RelaxArith.Proofs.Host.Parsed
import RelaxArith.Proofs.Host.Expansion
import RelaxArith.Proofs.Host.Settled
import RelaxArith.Proofs.Host.Imports
import RelaxArith.Proofs.Host.Program
import RelaxArith.Proofs.Host.Operands
import RelaxArith.Proofs.Host.FirstMiscall
import RelaxArith.Proofs.Shell.Directory
import RelaxArith.Proofs.Shell.Loading
import RelaxArith.Proofs.Shell.Session
import RelaxArith.Proofs.Shell.SourceTool
