import MonkeyLang.Assoc
import MonkeyLang.Binary64
import MonkeyLang.Binary64.Shortest
import MonkeyLang.Builtin
import MonkeyLang.Builtin.Call
import MonkeyLang.CommandLine
import MonkeyLang.CommandLine.Arguments
import MonkeyLang.Console
import MonkeyLang.Decimal
import MonkeyLang.Editor.Documents
import MonkeyLang.Editor.Index
import MonkeyLang.Editor.Word
import MonkeyLang.Eval
import MonkeyLang.Expansion
import MonkeyLang.Fault
import MonkeyLang.FilePath
import MonkeyLang.FileTree
import MonkeyLang.Halt
import MonkeyLang.HashKey
import MonkeyLang.Json
import MonkeyLang.Json.Reader
import MonkeyLang.Json.Writer
import MonkeyLang.Kind
import MonkeyLang.Lexeme
import MonkeyLang.Machine
import MonkeyLang.Main
import MonkeyLang.Node
import MonkeyLang.Node.Pieces
import MonkeyLang.Node.Render
import MonkeyLang.Node.Rule
import MonkeyLang.Node.Transform
import MonkeyLang.Operator
import MonkeyLang.Parser
import MonkeyLang.Parser.Cursor
import MonkeyLang.Proofs.Evaluation.Expansion
import MonkeyLang.Proofs.Evaluation.Frame
import MonkeyLang.Proofs.Evaluation.Invariant
import MonkeyLang.Proofs.Evaluation.Kept
import MonkeyLang.Proofs.Grammar.Derivation
import MonkeyLang.Proofs.Grammar.Lexical
import MonkeyLang.Proofs.Grammar.Printing
import MonkeyLang.Proofs.Grammar.WellFormed
import MonkeyLang.Proofs.Lexing.Rendering
import MonkeyLang.Proofs.Lexing.Words
import MonkeyLang.Proofs.Machine.Runs
import MonkeyLang.Proofs.Node.Erase
import MonkeyLang.Proofs.Node.Sequential
import MonkeyLang.Proofs.Parser.Completeness
import MonkeyLang.Proofs.Parser.Constructs
import MonkeyLang.Proofs.Parser.Honest
import MonkeyLang.Proofs.Parser.Reads
import MonkeyLang.Proofs.Parser.RoundTrip
import MonkeyLang.Proofs.Parser.Soundness
import MonkeyLang.Proofs.Parser.Tiers
import MonkeyLang.Proofs.Session.Reached
import MonkeyLang.Proofs.Session.Values
import MonkeyLang.Proofs.Value.Ordinary
import MonkeyLang.Proofs.Value.Reach
import MonkeyLang.Quote
import MonkeyLang.Repl
import MonkeyLang.Server
import MonkeyLang.Session
import MonkeyLang.Settings
import MonkeyLang.Store
import MonkeyLang.Store.Inspect
import MonkeyLang.Text.Blank
import MonkeyLang.Text.Digit
import MonkeyLang.Text.Hex
import MonkeyLang.Text.Lines
import MonkeyLang.Text.Numeral
import MonkeyLang.Text.Printable
import MonkeyLang.Text.Quoted
import MonkeyLang.Token
import MonkeyLang.TokenStream
import MonkeyLang.Value
import MonkeyLang.Value.Inspect
import MonkeyLang.Proofs.Evaluation.Isolation
import MonkeyLang.Proofs.Machine.Proper
import MonkeyLang.Proofs.Evaluation.Alike
import MonkeyLang.Proofs.Evaluation.Compared
import MonkeyLang.Proofs.Evaluation.Evaluators
import MonkeyLang.Proofs.Session.Supervised
import MonkeyLang.Proofs.Session.Dispatch
import MonkeyLang.Proofs.Session.Halts
import MonkeyLang.Proofs.Session.Refused
import MonkeyLang.Proofs.Lexing.Places
import MonkeyLang.Proofs.Parser.Names
import MonkeyLang.Proofs.Session.Framing
import MonkeyLang.Proofs.Editor.Lookup
import MonkeyLang.Proofs.Editor.Definitions
import MonkeyLang.Proofs.Session.TopLevel
import MonkeyLang.Proofs.Node.Filled
import MonkeyLang.Proofs.Machine.Pairing
import MonkeyLang.Proofs.Value.Like
import MonkeyLang.Proofs.Machine.Renumbered
import MonkeyLang.Proofs.Evaluation.Copied
import MonkeyLang.Proofs.Evaluation.Paired
import MonkeyLang.Proofs.Parser.Layout
import MonkeyLang.Proofs.Session.Renumbered
import MonkeyLang.Proofs.Session.Observed
import MonkeyLang.Proofs.Session.Layout
import MonkeyLang.Proofs.Session.Prelude
import MonkeyLang.Proofs.Lexing.Coverage
import MonkeyLang.Proofs.Lexing.Newlines
import MonkeyLang.Proofs.Lexing.Unclosed
import MonkeyLang.Proofs.Lexing.Spelling
import MonkeyLang.Proofs.Evaluation.Arithmetic
import MonkeyLang.Proofs.Session.Arithmetic
import MonkeyLang.Proofs.Evaluation.Exits
import MonkeyLang.Proofs.Node.Children
import MonkeyLang.Proofs.Value.Fits
import MonkeyLang.Proofs.Evaluation.Setting
import MonkeyLang.Proofs.Evaluation.Settled
import MonkeyLang.Proofs.Evaluation.Written
import MonkeyLang.Proofs.Node.Renamed
import MonkeyLang.Proofs.Quotation.Rewriting
import MonkeyLang.Proofs.Quotation.Signals
import MonkeyLang.Proofs.Quotation.Copies
import MonkeyLang.Proofs.Quotation.Trees
import MonkeyLang.Proofs.Quotation.Visits
import MonkeyLang.Proofs.Quotation.Enclosed
import MonkeyLang.Proofs.Quotation.Calm
import MonkeyLang.Proofs.Quotation.Clearing
import MonkeyLang.Proofs.Quotation.Cleared
import MonkeyLang.Proofs.Quotation.Rewritten
import MonkeyLang.Proofs.Quotation.Ends
import MonkeyLang.Proofs.Machine.Motion
import MonkeyLang.Proofs.Quotation.Expanded
import MonkeyLang.Proofs.Session.Quotations
import MonkeyLang.Proofs.Quotation.Substitution
import MonkeyLang.Proofs.Quotation.Apart
import MonkeyLang.Proofs.Quotation.Substituted
import MonkeyLang.Proofs.Quotation.Wrapped
import MonkeyLang.Proofs.Expansion.Definitions
import MonkeyLang.Proofs.Expansion.Course
import MonkeyLang.Proofs.Expansion.Exhaustive
import MonkeyLang.Proofs.Expansion.Templates
import MonkeyLang.Proofs.Quotation.Quoted
import MonkeyLang.Proofs.Value.Parts
import MonkeyLang.Proofs.Evaluation.Deeper
import MonkeyLang.Proofs.Session.Numbered
import MonkeyLang.Proofs.Session.Known
import MonkeyLang.Proofs.Session.Onward
import MonkeyLang.Proofs.Session.Repeated
import MonkeyLang.Proofs.Parser.Bounds
import MonkeyLang.Proofs.Parser.Compositional
import MonkeyLang.Proofs.Parser.Steps
import MonkeyLang.Proofs.Parser.Diagnostics
import MonkeyLang.Proofs.Evaluation.Hashes
import MonkeyLang.Proofs.Evaluation.Digests
import MonkeyLang.Proofs.Node.Postorder
import MonkeyLang.Proofs.Node.Fusion
import MonkeyLang.Proofs.Session.Outcomes
import MonkeyLang.Proofs.Session.Served
import MonkeyLang.Proofs.Session.Prompted
import MonkeyLang.Proofs.Editor.Hover
import MonkeyLang.Proofs.Editor.Words
import MonkeyLang.Proofs.Editor.Notices
import MonkeyLang.Proofs.Session.Equality
