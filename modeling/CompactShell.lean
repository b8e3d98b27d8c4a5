import CompactShell.Command.Arguments
import CompactShell.Command.Hook
import CompactShell.Command.Outcome
import CompactShell.Command.Statistics
import CompactShell.Command.Verification
import CompactShell.Config.Basic
import CompactShell.Config.Effect
import CompactShell.Config.File
import CompactShell.Failure
import CompactShell.Host.Basic
import CompactShell.Host.Files
import CompactShell.Host.Path
import CompactShell.Json.Display
import CompactShell.Json.Fault
import CompactShell.Json.Numeral
import CompactShell.Json.Reader
import CompactShell.Json.String
import CompactShell.Json.Value
import CompactShell.Json.Writer
import CompactShell.Log.Entry
import CompactShell.Log.Finder
import CompactShell.Log.Name
import CompactShell.Log.Redaction
import CompactShell.Log.Store
import CompactShell.Log.Time
import CompactShell.Main
import CompactShell.Number.Binary64
import CompactShell.Number.Shortest
import CompactShell.Proofs.Config.Faults
import CompactShell.Proofs.Config.Merging
import CompactShell.Proofs.Config.Numbered
import CompactShell.Proofs.Config.Readings
import CompactShell.Proofs.Config.Reports
import CompactShell.Proofs.Hook.Agreement
import CompactShell.Proofs.Hook.Answers
import CompactShell.Proofs.Hook.Failures
import CompactShell.Proofs.Hook.Responses
import CompactShell.Proofs.Hook.Runs
import CompactShell.Proofs.Hook.Warnings
import CompactShell.Proofs.Host.Files
import CompactShell.Proofs.Host.Paths
import CompactShell.Proofs.Json.Decimals
import CompactShell.Proofs.Json.Depth
import CompactShell.Proofs.Json.Nesting
import CompactShell.Proofs.Json.Numbers
import CompactShell.Proofs.Json.Proper
import CompactShell.Proofs.Json.RoundTrip
import CompactShell.Proofs.Json.Strings
import CompactShell.Proofs.Log.Counts
import CompactShell.Proofs.Log.Endings
import CompactShell.Proofs.Log.Growth
import CompactShell.Proofs.Log.Kinds
import CompactShell.Proofs.Log.Lines
import CompactShell.Proofs.Log.Marked
import CompactShell.Proofs.Log.Names
import CompactShell.Proofs.Log.Redacted
import CompactShell.Proofs.Log.Replacing
import CompactShell.Proofs.Log.Secrets
import CompactShell.Proofs.Log.Settled
import CompactShell.Proofs.Log.Spots
import CompactShell.Proofs.Log.Store
import CompactShell.Proofs.Log.Unfinished
import CompactShell.Proofs.Rewriter.Joined
import CompactShell.Proofs.Rewriter.Lines
import CompactShell.Proofs.Rewriter.Operators
import CompactShell.Proofs.Rewriter.Parts
import CompactShell.Proofs.Rewriter.Programs
import CompactShell.Proofs.Rewriter.Quoted
import CompactShell.Proofs.Rewriter.Selection
import CompactShell.Proofs.Rewriter.Settled
import CompactShell.Proofs.Rewriter.Through
import CompactShell.Proofs.Rule.Changes
import CompactShell.Proofs.Rule.Ends
import CompactShell.Proofs.Rule.Exclusive
import CompactShell.Proofs.Rule.FirstLines
import CompactShell.Proofs.Rule.Fronts
import CompactShell.Proofs.Rule.Seams
import CompactShell.Proofs.Rule.Subcommands
import CompactShell.Proofs.Search.Arguments
import CompactShell.Proofs.Search.Clauses
import CompactShell.Proofs.Search.Emitted
import CompactShell.Proofs.Search.Flags
import CompactShell.Proofs.Search.Interleaved
import CompactShell.Proofs.Search.Parts
import CompactShell.Proofs.Search.Readings
import CompactShell.Proofs.Search.Values
import CompactShell.Proofs.Session.Runs
import CompactShell.Proofs.Shell.Assignments
import CompactShell.Proofs.Shell.Boundaries
import CompactShell.Proofs.Shell.Cut
import CompactShell.Proofs.Shell.Leftover
import CompactShell.Proofs.Shell.Letters
import CompactShell.Proofs.Shell.Lines
import CompactShell.Proofs.Shell.Operators
import CompactShell.Proofs.Shell.Places
import CompactShell.Proofs.Shell.Single
import CompactShell.Proofs.Shell.Spelling
import CompactShell.Proofs.Shell.Trimmed
import CompactShell.Proofs.Shell.Typed
import CompactShell.Proofs.Shell.Words
import CompactShell.Rewriter
import CompactShell.Rule.Basic
import CompactShell.Rule.Phrase
import CompactShell.Rule.Subcommand
import CompactShell.Rule.Table
import CompactShell.Search.Find
import CompactShell.Search.Grep
import CompactShell.Search.Grep.Item
import CompactShell.Search.Head
import CompactShell.Session.Basic
import CompactShell.Session.Tally
import CompactShell.Shell.Assignment
import CompactShell.Shell.Line
import CompactShell.Shell.Operator
import CompactShell.Shell.Quoting
import CompactShell.Shell.Requote
import CompactShell.Shell.Word
import CompactShell.Text.Choice
import CompactShell.Text.Class
import CompactShell.Text.Digit
import CompactShell.Text.Hex
import CompactShell.Text.Letter
import CompactShell.Text.Lines
import CompactShell.Text.Printable
import CompactShell.Text.Quoted
import CompactShell.Text.Space
import CompactShell.Text.Utf8
