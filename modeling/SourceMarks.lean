import SourceMarks.Check.Annotations
import SourceMarks.Check.Basic
import SourceMarks.Check.Record
import SourceMarks.CommandLine.Arguments
import SourceMarks.CommandLine.Run
import SourceMarks.Directive.Basic
import SourceMarks.Directive.Payload
import SourceMarks.Directive.Registry
import SourceMarks.Directive.Resolve
import SourceMarks.Expansion
import SourceMarks.Fault
import SourceMarks.Glob.Expression
import SourceMarks.Glob.Pattern
import SourceMarks.Glob.Split
import SourceMarks.Json.Basic
import SourceMarks.Json.Fault
import SourceMarks.Json.Reader
import SourceMarks.Json.Shape
import SourceMarks.Json.Writer
import SourceMarks.Main
import SourceMarks.Marker.Basic
import SourceMarks.Marker.Occurrence
import SourceMarks.Marker.Record
import SourceMarks.Matcher
import SourceMarks.Number.Binary64
import SourceMarks.Number.Shortest
import SourceMarks.Path.Basic
import SourceMarks.Path.Relative
import SourceMarks.Pipeline.Chain
import SourceMarks.Pipeline.File
import SourceMarks.Pipeline.Summary
import SourceMarks.Proofs.Check.Agreement
import SourceMarks.Proofs.Check.Dangling
import SourceMarks.Proofs.Check.Faults
import SourceMarks.Proofs.Check.Places
import SourceMarks.Proofs.Check.Report
import SourceMarks.Proofs.Check.Totals
import SourceMarks.Proofs.CommandLine.Batch
import SourceMarks.Proofs.CommandLine.Jobs
import SourceMarks.Proofs.CommandLine.OutDir
import SourceMarks.Proofs.Directive.Bases
import SourceMarks.Proofs.Directive.Commas
import SourceMarks.Proofs.Directive.Encoding
import SourceMarks.Proofs.Directive.Grammar
import SourceMarks.Proofs.Directive.Labels
import SourceMarks.Proofs.Directive.Payload
import SourceMarks.Proofs.Directive.Registry
import SourceMarks.Proofs.Directive.Repeats
import SourceMarks.Proofs.Directive.Scanner
import SourceMarks.Proofs.Directive.Shelter
import SourceMarks.Proofs.Directive.Sources
import SourceMarks.Proofs.Expansion.Exact
import SourceMarks.Proofs.Expansion.Files
import SourceMarks.Proofs.Expansion.Rendered
import SourceMarks.Proofs.Expansion.Rerun
import SourceMarks.Proofs.Glob.Alignment
import SourceMarks.Proofs.Glob.Cut
import SourceMarks.Proofs.Glob.Language
import SourceMarks.Proofs.Glob.Lead
import SourceMarks.Proofs.Glob.Reading
import SourceMarks.Proofs.Glob.Segments
import SourceMarks.Proofs.Glob.Separators
import SourceMarks.Proofs.Json.Consumption
import SourceMarks.Proofs.Json.Counts
import SourceMarks.Proofs.Json.Layout
import SourceMarks.Proofs.Json.Names
import SourceMarks.Proofs.Json.Quote
import SourceMarks.Proofs.Json.Shaped
import SourceMarks.Proofs.Json.Spelling
import SourceMarks.Proofs.Marker.Calls
import SourceMarks.Proofs.Marker.Form
import SourceMarks.Proofs.Marker.Greedy
import SourceMarks.Proofs.Marker.Layout
import SourceMarks.Proofs.Marker.Parts
import SourceMarks.Proofs.Marker.Pieces
import SourceMarks.Proofs.Marker.Replacement
import SourceMarks.Proofs.Marker.Separate
import SourceMarks.Proofs.Matcher.Collection
import SourceMarks.Proofs.Matcher.Diagnosis
import SourceMarks.Proofs.Matcher.Expand
import SourceMarks.Proofs.Matcher.Hidden
import SourceMarks.Proofs.Matcher.Pruning
import SourceMarks.Proofs.Matcher.Wildcards
import SourceMarks.Proofs.Outcome
import SourceMarks.Proofs.Path.Below
import SourceMarks.Proofs.Path.Congruence
import SourceMarks.Proofs.Path.Normal
import SourceMarks.Proofs.Path.Parts
import SourceMarks.Proofs.Path.Raw
import SourceMarks.Proofs.Path.Relative
import SourceMarks.Proofs.Pipeline.Commutation
import SourceMarks.Proofs.Pipeline.Composition
import SourceMarks.Proofs.Pipeline.Soundness
import SourceMarks.Proofs.Pipeline.Written
import SourceMarks.Proofs.Report.ReadBack
import SourceMarks.Proofs.Text.Bytes
import SourceMarks.Proofs.Text.Cut
import SourceMarks.Proofs.Text.Order
import SourceMarks.Proofs.Text.Position
import SourceMarks.Proofs.Text.Raw
import SourceMarks.Proofs.Text.Search
import SourceMarks.Proofs.Text.Split
import SourceMarks.Proofs.Tree.Entries
import SourceMarks.Proofs.Tree.Files
import SourceMarks.Proofs.Tree.Lookup
import SourceMarks.Proofs.Tree.Nodes
import SourceMarks.Proofs.Tree.Reading
import SourceMarks.Proofs.Tree.Steps
import SourceMarks.Proofs.Tree.Writing
import SourceMarks.Proofs.Version.Commented
import SourceMarks.Proofs.Version.Cuts
import SourceMarks.Proofs.Version.Reference
import SourceMarks.Proofs.Version.Stamped
import SourceMarks.Proofs.Version.Target
import SourceMarks.Report.Render
import SourceMarks.Report.Style
import SourceMarks.Settings.Basic
import SourceMarks.Text.Basic
import SourceMarks.Text.Blank
import SourceMarks.Text.Position
import SourceMarks.Text.Quoted
import SourceMarks.Text.Raw
import SourceMarks.Toml.Reader
import SourceMarks.Toml.Scalar
import SourceMarks.Toml.Table
import SourceMarks.Tree.Basic
import SourceMarks.Tree.Walk
import SourceMarks.Tree.Write
import SourceMarks.Version.Stamp
import SourceMarks.Version.Target
