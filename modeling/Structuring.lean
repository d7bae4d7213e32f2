import Structuring.Attributes
import Structuring.CommandLine.Arguments
import Structuring.CommandLine.Console
import Structuring.CommandLine.Outlet
import Structuring.CommandLine.Run
import Structuring.CommandLine.StepFiles
import Structuring.Dot.Clause
import Structuring.Dot.Lexer
import Structuring.Dot.Reader
import Structuring.Dot.Token
import Structuring.Dot.Writer
import Structuring.Failure
import Structuring.Files
import Structuring.Graph.Digraph
import Structuring.Graph.DominatorTree
import Structuring.Graph.FixedPoint
import Structuring.Graph.FlowGraph
import Structuring.Graph.Interval
import Structuring.Graph.LengauerTarjan
import Structuring.Graph.Search
import Structuring.Graph.Sketch
import Structuring.Graph.Workspace
import Structuring.Image
import Structuring.Json.Datum
import Structuring.Json.Reader
import Structuring.Json.Writer
import Structuring.Location
import Structuring.Log
import Structuring.Main
import Structuring.Number.Double
import Structuring.Path
import Structuring.Primitive
import Structuring.Proofs.Attributes
import Structuring.Proofs.Dot.Content
import Structuring.Proofs.Dot.Cut
import Structuring.Proofs.Dot.Depicts
import Structuring.Proofs.Dot.Draft
import Structuring.Proofs.Dot.Entry
import Structuring.Proofs.Dot.Excerpt
import Structuring.Proofs.Dot.Grammar
import Structuring.Proofs.Dot.IntervalText
import Structuring.Proofs.Dot.Lexeme
import Structuring.Proofs.Dot.Parsing
import Structuring.Proofs.Dot.Parts
import Structuring.Proofs.Dot.Pieces
import Structuring.Proofs.Dot.Places
import Structuring.Proofs.Dot.Quoting
import Structuring.Proofs.Dot.Reader
import Structuring.Proofs.Dot.RoundTrip
import Structuring.Proofs.Dot.Spelling
import Structuring.Proofs.Dot.StringUnits
import Structuring.Proofs.Dot.Textual
import Structuring.Proofs.Dot.Writing
import Structuring.Proofs.Graph.Compression
import Structuring.Proofs.Graph.DepthFirst
import Structuring.Proofs.Graph.Derived
import Structuring.Proofs.Graph.DominatorQueries
import Structuring.Proofs.Graph.DominatorTree
import Structuring.Proofs.Graph.FixedPoint
import Structuring.Proofs.Graph.History
import Structuring.Proofs.Graph.Interval
import Structuring.Proofs.Graph.LengauerTarjan
import Structuring.Proofs.Graph.Link
import Structuring.Proofs.Graph.LinkForest
import Structuring.Proofs.Graph.Lookup
import Structuring.Proofs.Graph.Multigraph
import Structuring.Proofs.Graph.Partition
import Structuring.Proofs.Graph.Redrawing
import Structuring.Proofs.Graph.Reducible
import Structuring.Proofs.Graph.SearchForest
import Structuring.Proofs.Graph.Semidominator
import Structuring.Proofs.Graph.Snapshot
import Structuring.Proofs.Graph.Walk
import Structuring.Proofs.Graph.WellFormed
import Structuring.Proofs.Json.Number
import Structuring.Proofs.Json.RoundTrip
import Structuring.Proofs.Json.Text
import Structuring.Proofs.Mirror.Derived
import Structuring.Proofs.Mirror.Graph
import Structuring.Proofs.Mirror.Interval
import Structuring.Proofs.Mirror.Merge
import Structuring.Proofs.Mirror.Run
import Structuring.Proofs.Mirror.Search
import Structuring.Proofs.Record
import Structuring.Proofs.Reduction.Boundary
import Structuring.Proofs.Reduction.Branches
import Structuring.Proofs.Reduction.Calls
import Structuring.Proofs.Reduction.Comparison
import Structuring.Proofs.Reduction.Complete
import Structuring.Proofs.Reduction.Confluence
import Structuring.Proofs.Reduction.Contraction
import Structuring.Proofs.Reduction.CopiedState
import Structuring.Proofs.Reduction.Copy
import Structuring.Proofs.Reduction.Cycles
import Structuring.Proofs.Reduction.DerivedGraph
import Structuring.Proofs.Reduction.DerivedSequence
import Structuring.Proofs.Reduction.Dominance
import Structuring.Proofs.Reduction.Endless
import Structuring.Proofs.Reduction.Indexed
import Structuring.Proofs.Reduction.IndexedCalls
import Structuring.Proofs.Reduction.Labels
import Structuring.Proofs.Reduction.Merge
import Structuring.Proofs.Reduction.Outcome
import Structuring.Proofs.Reduction.Overlap
import Structuring.Proofs.Reduction.Pattern
import Structuring.Proofs.Reduction.Quotient
import Structuring.Proofs.Reduction.Reducibility
import Structuring.Proofs.Reduction.Run
import Structuring.Proofs.Reduction.Search
import Structuring.Proofs.Reduction.Shape
import Structuring.Proofs.Reduction.Step
import Structuring.Proofs.Reduction.Template
import Structuring.Proofs.Reduction.Within
import Structuring.Proofs.Table
import Structuring.Proofs.Text.Lines
import Structuring.Record
import Structuring.Recovery
import Structuring.Reduction.Hammock
import Structuring.Reduction.Indexed
import Structuring.Reduction.Levels
import Structuring.Reduction.Merge
import Structuring.Reduction.Pattern
import Structuring.Reduction.Step
import Structuring.Report
import Structuring.Table
import Structuring.Text.CodePoint
import Structuring.Text.Decoding
import Structuring.Text.Digit
import Structuring.Text.Lines
import Structuring.Text.Literal
import Structuring.Text.Printable
import Structuring.Value
