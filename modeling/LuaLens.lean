import LuaLens.Cli.CommandLine
import LuaLens.Cli.Program
import LuaLens.Cli.Report
import LuaLens.Corpus.Basic
import LuaLens.Corpus.Escape
import LuaLens.FileSystem
import LuaLens.Host.Answers
import LuaLens.Host.Buffer
import LuaLens.Host.Choices
import LuaLens.Host.Client
import LuaLens.Host.Command
import LuaLens.Host.Editor
import LuaLens.Host.Jobs
import LuaLens.Host.Markers
import LuaLens.Host.Programs
import LuaLens.Host.Snippet
import LuaLens.Host.View
import LuaLens.Ignore.Basic
import LuaLens.Ignore.Glob
import LuaLens.Index.Basic
import LuaLens.Index.Builtins
import LuaLens.Index.Config
import LuaLens.Index.Walk
import LuaLens.Json.Basic
import LuaLens.Json.Double
import LuaLens.Json.Parser
import LuaLens.Json.Printer
import LuaLens.Main
import LuaLens.Path
import LuaLens.Protocol.Abilities
import LuaLens.Protocol.Encode
import LuaLens.Protocol.Event
import LuaLens.Protocol.Params
import LuaLens.Protocol.Position
import LuaLens.Protocol.Request
import LuaLens.Protocol.Shape
import LuaLens.Protocol.Types
import LuaLens.Query.Completion
import LuaLens.Query.Context
import LuaLens.Query.Definition
import LuaLens.Query.Documents
import LuaLens.Query.Lookup
import LuaLens.Query.Signature
import LuaLens.Query.Symbols
import LuaLens.Server
import LuaLens.Symbol.Basic
import LuaLens.Symbol.Declaration
import LuaLens.Symbol.Extract
import LuaLens.Text.Alphabetic
import LuaLens.Text.Basic
import LuaLens.Text.CaseTables
import LuaLens.Text.CodeRanges
import LuaLens.Text.Lowercase
import LuaLens.Text.Scan
import LuaLens.Text.Units
import LuaLens.Toml.Basic
import LuaLens.Toml.Document
import LuaLens.Toml.Scalar
import LuaLens.Uri.Basic
import LuaLens.Uri.Host
import LuaLens.Uri.Parser
import LuaLens.Uri.Percent
import LuaLens.Wire.Connection
import LuaLens.Wire.FarEnd
import LuaLens.Wire.Frame
import LuaLens.Wire.Message
import LuaLens.Wire.Output
import LuaLens.Proofs.Corpus.Line
import LuaLens.Proofs.Corpus.Load
import LuaLens.Proofs.Symbol
import LuaLens.Proofs.FileSystem
import LuaLens.Proofs.Text.Cut
import LuaLens.Proofs.Text.Units
import LuaLens.Proofs.Text.Utf8
import LuaLens.Proofs.Text.Lossy
import LuaLens.Proofs.Wire.Conversation
import LuaLens.Proofs.Wire.Frame
import LuaLens.Proofs.Wire.Header
import LuaLens.Proofs.Sorting
import LuaLens.Proofs.Index.Entries
import LuaLens.Proofs.Index.Scan
import LuaLens.Proofs.Label
import LuaLens.Proofs.Corpus.Fields
import LuaLens.Proofs.Index.Rescan
import LuaLens.Proofs.Uri
import LuaLens.Proofs.Canonical
import LuaLens.Proofs.Server.Outcome
import LuaLens.Proofs.Server.Synced
import LuaLens.Proofs.Wire.Block
import LuaLens.Proofs.Server.Serving
import LuaLens.Proofs.Index.Calls
import LuaLens.Proofs.Index.Failed
import LuaLens.Proofs.Query.Brackets
import LuaLens.Proofs.Query.Literals
import LuaLens.Proofs.Query.LongStrings
import LuaLens.Proofs.Query.Locals
import LuaLens.Proofs.Corpus.Reread
import LuaLens.Proofs.Corpus.RoundTrip
import LuaLens.Proofs.Index.Walk
import LuaLens.Proofs.Index.Unchanged
import LuaLens.Proofs.Server.Phase
import LuaLens.Proofs.Wire.Steps
import LuaLens.Proofs.Wire.Limit
import LuaLens.Proofs.Firsts
import LuaLens.Proofs.Query.Candidates
import LuaLens.Proofs.Query.BareWords
import LuaLens.Proofs.Query.Ranking
import LuaLens.Proofs.Host.Call
import LuaLens.Proofs.Host.Documents
import LuaLens.Proofs.Host.Discipline
import LuaLens.Proofs.Host.Servers
import LuaLens.Proofs.Host.Act
import LuaLens.Proofs.Host.Turns
import LuaLens.Proofs.Host.Messages
import LuaLens.Proofs.Host.Steady
import LuaLens.Proofs.Host.Shown
import LuaLens.Proofs.Host.Questions
import LuaLens.Proofs.Host.Layout
import LuaLens.Proofs.Host.Markers
import LuaLens.Proofs.Host.Caret
import LuaLens.Proofs.Host.Typing
import LuaLens.Proofs.Host.Versions
import LuaLens.Proofs.FileSystem.Places
import LuaLens.Proofs.Index.Cache
import LuaLens.Proofs.Index.Session
import LuaLens.Proofs.Index.Ceiling
import LuaLens.Proofs.Text.Trim
import LuaLens.Proofs.Text.Search
import LuaLens.Proofs.Symbol.Acts
import LuaLens.Proofs.Symbol.Places
import LuaLens.Proofs.Query.Locators
import LuaLens.Proofs.Symbol.Headers
import LuaLens.Proofs.Query.Lookup
import LuaLens.Proofs.Symbol.Lexis
import LuaLens.Proofs.Symbol.Comments
import LuaLens.Proofs.Symbol.Hidden
import LuaLens.Proofs.Host.Opening
import LuaLens.Proofs.Label.Resolve
import LuaLens.Proofs.Symbol.Parameters
import LuaLens.Proofs.Query.Parameters
import LuaLens.Proofs.Query.Names
import LuaLens.Proofs.Query.Selection
import LuaLens.Proofs.Shape
import LuaLens.Proofs.Host.Jobs
import LuaLens.Proofs.Host.Snippet
import LuaLens.Proofs.Host.Columns
