import ObjectFlow.Annotated.Build
import ObjectFlow.Annotated.Collapse
import ObjectFlow.Annotated.Document
import ObjectFlow.Annotated.Draft
import ObjectFlow.Annotated.Node
import ObjectFlow.Annotated.Reify
import ObjectFlow.Binary64
import ObjectFlow.CommandLine.Arguments
import ObjectFlow.CommandLine.Run
import ObjectFlow.Decimal.Shortest
import ObjectFlow.Document
import ObjectFlow.Flow.Basic
import ObjectFlow.Flow.Document
import ObjectFlow.Flow.Exchange
import ObjectFlow.Flow.Flatten
import ObjectFlow.Flow.Join
import ObjectFlow.Flow.Node
import ObjectFlow.Flow.Recorder
import ObjectFlow.Flow.Recording
import ObjectFlow.Flow.Tape
import ObjectFlow.Graph.Basic
import ObjectFlow.Graph.Closure
import ObjectFlow.Graph.Document
import ObjectFlow.Graph.Error
import ObjectFlow.Graph.Indexed
import ObjectFlow.Graph.Order
import ObjectFlow.Graph.Rewire
import ObjectFlow.Graph.Search
import ObjectFlow.Graph.Seating
import ObjectFlow.Identity
import ObjectFlow.Interpretation
import ObjectFlow.Json.Number
import ObjectFlow.Json.Outline
import ObjectFlow.Json.Printer
import ObjectFlow.Json.Reader
import ObjectFlow.Json.Value
import ObjectFlow.Main
import ObjectFlow.Note.Basic
import ObjectFlow.Note.Document
import ObjectFlow.Ontology.Basic
import ObjectFlow.Ontology.Document
import ObjectFlow.Ontology.Inheritance
import ObjectFlow.Profile
import ObjectFlow.Proofs.Annotated.Build
import ObjectFlow.Proofs.Annotated.Collapse
import ObjectFlow.Proofs.Annotated.Collapsed
import ObjectFlow.Proofs.Annotated.Course
import ObjectFlow.Proofs.Annotated.Draft
import ObjectFlow.Proofs.Annotated.Exhaustive
import ObjectFlow.Proofs.Annotated.Fresh
import ObjectFlow.Proofs.Annotated.Labels
import ObjectFlow.Proofs.Annotated.Links
import ObjectFlow.Proofs.Annotated.Pinned
import ObjectFlow.Proofs.Annotated.Ports
import ObjectFlow.Proofs.Annotated.Reify
import ObjectFlow.Proofs.Annotated.Shape
import ObjectFlow.Proofs.Annotated.Turns
import ObjectFlow.Proofs.Annotated.Upkeep
import ObjectFlow.Proofs.Flow.Append
import ObjectFlow.Proofs.Flow.Arena
import ObjectFlow.Proofs.Flow.Arguments
import ObjectFlow.Proofs.Flow.Associate
import ObjectFlow.Proofs.Flow.Bordered
import ObjectFlow.Proofs.Flow.Concur
import ObjectFlow.Proofs.Flow.Continue
import ObjectFlow.Proofs.Flow.Exchange
import ObjectFlow.Proofs.Flow.Expand
import ObjectFlow.Proofs.Flow.Extend
import ObjectFlow.Proofs.Flow.Extended
import ObjectFlow.Proofs.Flow.Flat
import ObjectFlow.Proofs.Flow.Flatten
import ObjectFlow.Proofs.Flow.Framed
import ObjectFlow.Proofs.Flow.Graft
import ObjectFlow.Proofs.Flow.Inline
import ObjectFlow.Proofs.Flow.Insert
import ObjectFlow.Proofs.Flow.Join
import ObjectFlow.Proofs.Flow.Origin
import ObjectFlow.Proofs.Flow.Page
import ObjectFlow.Proofs.Flow.Pins
import ObjectFlow.Proofs.Flow.Recorded
import ObjectFlow.Proofs.Flow.Recorder
import ObjectFlow.Proofs.Flow.Recording
import ObjectFlow.Proofs.Flow.Remember
import ObjectFlow.Proofs.Flow.Renumber
import ObjectFlow.Proofs.Flow.Resume
import ObjectFlow.Proofs.Flow.Steady
import ObjectFlow.Proofs.Flow.Tape
import ObjectFlow.Proofs.Flow.Tie
import ObjectFlow.Proofs.Flow.Valid
import ObjectFlow.Proofs.Flow.Writers
import ObjectFlow.Proofs.Graph.Closure
import ObjectFlow.Proofs.Graph.Contract
import ObjectFlow.Proofs.Graph.History
import ObjectFlow.Proofs.Graph.Order
import ObjectFlow.Proofs.Graph.Path
import ObjectFlow.Proofs.Graph.Quotient
import ObjectFlow.Proofs.Graph.Reachability
import ObjectFlow.Proofs.Graph.Refusal
import ObjectFlow.Proofs.Graph.Rewire
import ObjectFlow.Proofs.Graph.Search
import ObjectFlow.Proofs.Graph.Subdivide
import ObjectFlow.Proofs.Graph.Thin
import ObjectFlow.Proofs.Graph.WellFormed
import ObjectFlow.Proofs.Interchange
import ObjectFlow.Proofs.Ontology.Nearest
import ObjectFlow.Proofs.Outcome
import ObjectFlow.Proofs.Semantic.Build
import ObjectFlow.Proofs.Semantic.Course
import ObjectFlow.Proofs.Semantic.Fold
import ObjectFlow.Proofs.Semantic.Lookup
import ObjectFlow.Proofs.Semantic.Shape
import ObjectFlow.Proofs.Semantic.Unite
import ObjectFlow.Proofs.Store.Annotator
import ObjectFlow.Proofs.Store.Database
import ObjectFlow.Proofs.Store.Loading
import ObjectFlow.Proofs.Store.Written
import ObjectFlow.Proofs.Table
import ObjectFlow.Proofs.Trace.Event
import ObjectFlow.Proofs.Trace.Path
import ObjectFlow.Proofs.Trace.Payload
import ObjectFlow.Proofs.Trace.Slot
import ObjectFlow.Semantic.Aspects
import ObjectFlow.Semantic.Build
import ObjectFlow.Semantic.Document
import ObjectFlow.Semantic.Merge
import ObjectFlow.Semantic.Node
import ObjectFlow.Semantic.Typing
import ObjectFlow.Store.Annotator
import ObjectFlow.Store.Database
import ObjectFlow.Store.Files
import ObjectFlow.Store.Memory
import ObjectFlow.Store.Query
import ObjectFlow.Table
import ObjectFlow.Text.Blank
import ObjectFlow.Text.Hex
import ObjectFlow.Text.Integer
import ObjectFlow.Text.Order
import ObjectFlow.Text.Surrogate
import ObjectFlow.Text.Utf8
import ObjectFlow.Text.Uuid
import ObjectFlow.Trace.Document
import ObjectFlow.Trace.Event
import ObjectFlow.Trace.Payload
import ObjectFlow.Trace.Slot
import ObjectFlow.Trace.Snapshot
