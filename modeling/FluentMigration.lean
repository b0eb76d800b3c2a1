import FluentMigration.Blame
import FluentMigration.Changeset
import FluentMigration.Command.Arguments
import FluentMigration.Command.Run
import FluentMigration.Config
import FluentMigration.Context
import FluentMigration.Double.Basic
import FluentMigration.Double.Shortest
import FluentMigration.Error
import FluentMigration.Evaluation
import FluentMigration.Files
import FluentMigration.Fluent.Basic
import FluentMigration.Fluent.Dedent
import FluentMigration.Fluent.Lexeme
import FluentMigration.Fluent.Outline
import FluentMigration.Fluent.ParseError
import FluentMigration.Fluent.Parser
import FluentMigration.Fluent.Printer
import FluentMigration.Fluent.Resource
import FluentMigration.Glob.Pattern
import FluentMigration.Glob.Search
import FluentMigration.Json.Basic
import FluentMigration.Json.Printer
import FluentMigration.Json.Reader
import FluentMigration.Legacy.Basic
import FluentMigration.Legacy.Dtd
import FluentMigration.Legacy.Po
import FluentMigration.Legacy.Properties
import FluentMigration.Legacy.Reader
import FluentMigration.Logging
import FluentMigration.Main
import FluentMigration.Merge
import FluentMigration.Migration
import FluentMigration.Pattern.Normal
import FluentMigration.Pattern.Visitor
import FluentMigration.Placeholder.Printf
import FluentMigration.Placeholder.Split
import FluentMigration.Plural.Category
import FluentMigration.Plural.Rule
import FluentMigration.Proofs.Attribution
import FluentMigration.Proofs.Changesets
import FluentMigration.Proofs.DryRun
import FluentMigration.Proofs.Evaluation.Bilingual
import FluentMigration.Proofs.Evaluation.Calls
import FluentMigration.Proofs.Evaluation.Concatenation
import FluentMigration.Proofs.Evaluation.Copies
import FluentMigration.Proofs.Evaluation.CopyArguments
import FluentMigration.Proofs.Evaluation.Dependencies
import FluentMigration.Proofs.Evaluation.Entries
import FluentMigration.Proofs.Evaluation.Literal
import FluentMigration.Proofs.Evaluation.PluralReading
import FluentMigration.Proofs.Evaluation.PluralSelection
import FluentMigration.Proofs.Evaluation.Plurals
import FluentMigration.Proofs.Evaluation.Reached
import FluentMigration.Proofs.Evaluation.Templates
import FluentMigration.Proofs.Evaluation.Writable
import FluentMigration.Proofs.Fluent.Apart
import FluentMigration.Proofs.Fluent.ApartEntries
import FluentMigration.Proofs.Fluent.ApartReading
import FluentMigration.Proofs.Fluent.ApartWords
import FluentMigration.Proofs.Fluent.ArgumentReading
import FluentMigration.Proofs.Fluent.Callees
import FluentMigration.Proofs.Fluent.Choices
import FluentMigration.Proofs.Fluent.Defaults
import FluentMigration.Proofs.Fluent.EntryReading
import FluentMigration.Proofs.Fluent.Escaping
import FluentMigration.Proofs.Fluent.Fuel
import FluentMigration.Proofs.Fluent.Indentation
import FluentMigration.Proofs.Fluent.InlineReading
import FluentMigration.Proofs.Fluent.LineEndings
import FluentMigration.Proofs.Fluent.LiteralText
import FluentMigration.Proofs.Fluent.Normal
import FluentMigration.Proofs.Fluent.NormalParts
import FluentMigration.Proofs.Fluent.Outcomes
import FluentMigration.Proofs.Fluent.Parsed
import FluentMigration.Proofs.Fluent.ParsedResource
import FluentMigration.Proofs.Fluent.PatternReading
import FluentMigration.Proofs.Fluent.Pieces
import FluentMigration.Proofs.Fluent.Reading
import FluentMigration.Proofs.Fluent.Reread
import FluentMigration.Proofs.Fluent.ResourceReading
import FluentMigration.Proofs.Fluent.RoundTrip
import FluentMigration.Proofs.Fluent.Scraps
import FluentMigration.Proofs.Fluent.Settled
import FluentMigration.Proofs.Fluent.SpelledLiterals
import FluentMigration.Proofs.Fluent.Stable
import FluentMigration.Proofs.Fluent.Tiling
import FluentMigration.Proofs.Fluent.Trimmed
import FluentMigration.Proofs.Fluent.VariantReading
import FluentMigration.Proofs.Fluent.WellFormed
import FluentMigration.Proofs.Fluent.Words
import FluentMigration.Proofs.Gating
import FluentMigration.Proofs.KeyLines
import FluentMigration.Proofs.KeyLines.Places
import FluentMigration.Proofs.KeyLines.Scan
import FluentMigration.Proofs.KeyLines.Within
import FluentMigration.Proofs.Legacy.Dtd
import FluentMigration.Proofs.Legacy.Dtd.Written
import FluentMigration.Proofs.Legacy.LineEndings
import FluentMigration.Proofs.Legacy.Po
import FluentMigration.Proofs.Legacy.Po.Written
import FluentMigration.Proofs.Legacy.Properties
import FluentMigration.Proofs.Legacy.Spans
import FluentMigration.Proofs.Loading
import FluentMigration.Proofs.Merge.Comments
import FluentMigration.Proofs.Merge.Content
import FluentMigration.Proofs.Merge.Lookup
import FluentMigration.Proofs.Merge.Merged
import FluentMigration.Proofs.Merge.Messages
import FluentMigration.Proofs.Merge.Once
import FluentMigration.Proofs.Merge.Readable
import FluentMigration.Proofs.Placeholder.Printf
import FluentMigration.Proofs.Placeholder.Splitting
import FluentMigration.Proofs.Recipe.Slots
import FluentMigration.Proofs.Registration
import FluentMigration.Proofs.Registration.Accumulation
import FluentMigration.Proofs.Registration.Parts
import FluentMigration.Proofs.Replay
import FluentMigration.Proofs.Replay.AtOnce
import FluentMigration.Proofs.Replay.Authors
import FluentMigration.Proofs.Replay.Comments
import FluentMigration.Proofs.Replay.Unchanged
import FluentMigration.Proofs.Repository.Porcelain
import FluentMigration.Proofs.Table
import FluentMigration.Proofs.Text.Expression
import FluentMigration.Proofs.Text.Integer
import FluentMigration.Proofs.Text.Lines
import FluentMigration.Proofs.Text.Returns
import FluentMigration.Proofs.Text.Trimming
import FluentMigration.Proofs.Visibility
import FluentMigration.Recipe.Basic
import FluentMigration.Recipe.Document
import FluentMigration.Recipe.Paths
import FluentMigration.Repository.Annotated
import FluentMigration.Repository.Basic
import FluentMigration.Repository.Porcelain
import FluentMigration.Repository.Tool
import FluentMigration.Source
import FluentMigration.Table
import FluentMigration.Text.Basic
import FluentMigration.Text.Number
import FluentMigration.Text.Quoted
import FluentMigration.Toml.Decoder
import FluentMigration.Toml.Lexeme
import FluentMigration.Toml.Problem
import FluentMigration.Toml.Reader
import FluentMigration.Toml.Value
import FluentMigration.Transform.Basic
import FluentMigration.Transform.FromFluent
import FluentMigration.Transform.Template
