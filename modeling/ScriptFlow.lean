import ScriptFlow.Catalog
import ScriptFlow.Dataflow
import ScriptFlow.Decimal.Integral
import ScriptFlow.Decimal.Numeral
import ScriptFlow.Decimal.Shortest
import ScriptFlow.Digest
import ScriptFlow.Edit
import ScriptFlow.Fault
import ScriptFlow.Graph.Basic
import ScriptFlow.Graph.FlowError
import ScriptFlow.Graph.Schema
import ScriptFlow.Graph.Walk
import ScriptFlow.Json.Basic
import ScriptFlow.Json.Canonical
import ScriptFlow.Json.Comparison
import ScriptFlow.Json.Equality
import ScriptFlow.Json.Reader
import ScriptFlow.Json.Sieve
import ScriptFlow.Json.Writer
import ScriptFlow.Label
import ScriptFlow.Layout.Apply
import ScriptFlow.Layout.Components
import ScriptFlow.Layout.Geometry
import ScriptFlow.Layout.Order
import ScriptFlow.Layout.Rank
import ScriptFlow.Layout.Search
import ScriptFlow.Layout.Topology
import ScriptFlow.Note
import ScriptFlow.Proofs.Contribution
import ScriptFlow.Proofs.Drawn
import ScriptFlow.Proofs.Execution
import ScriptFlow.Proofs.Ids
import ScriptFlow.Proofs.Links
import ScriptFlow.Proofs.Normalize
import ScriptFlow.Proofs.Reach
import ScriptFlow.Proofs.Reading
import ScriptFlow.Proofs.RoundTrip
import ScriptFlow.Proofs.Saved
import ScriptFlow.Proofs.Shape
import ScriptFlow.Proofs.Stations
import ScriptFlow.Proofs.Walk
import ScriptFlow.Schema.Basic
import ScriptFlow.Schema.IntegerText
import ScriptFlow.Schema.Scalar
import ScriptFlow.Script.Action
import ScriptFlow.Script.Document
import ScriptFlow.Script.Drawing
import ScriptFlow.Script.Equality
import ScriptFlow.Script.Outline
import ScriptFlow.Script.Rebuild
import ScriptFlow.Service
import ScriptFlow.Session.Basic
import ScriptFlow.Session.Command
import ScriptFlow.Session.History
import ScriptFlow.Session.Run
import ScriptFlow.Settings
import ScriptFlow.Text.Blank
import ScriptFlow.Text.Doubled
import ScriptFlow.Text.Literal
import ScriptFlow.Text.Lowercase
import ScriptFlow.Text.Printable
import ScriptFlow.Text.Ranges
import ScriptFlow.Validation
import ScriptFlow.Variables
import ScriptFlow.Proofs.Requests
import ScriptFlow.Proofs.Zipper
import ScriptFlow.Proofs.Integrity
import ScriptFlow.Proofs.Decoding
import ScriptFlow.Proofs.Codec
import ScriptFlow.Proofs.Valid
import ScriptFlow.Proofs.Reopening
import ScriptFlow.Proofs.Classes
import ScriptFlow.Proofs.Discovery
import ScriptFlow.Proofs.Ranking
import ScriptFlow.Proofs.Rows
import ScriptFlow.Proofs.Regions
import ScriptFlow.Proofs.TopDown
import ScriptFlow.Proofs.Congruence
import ScriptFlow.Proofs.Rewriting
import ScriptFlow.Proofs.Tidying
import ScriptFlow.Proofs.Amending
import ScriptFlow.Proofs.Summary
import ScriptFlow.Proofs.Advisory
import ScriptFlow.Proofs.Preorder
import ScriptFlow.Proofs.Refusal
import ScriptFlow.Proofs.Missing
import ScriptFlow.Proofs.EdgeOrder
import ScriptFlow.Proofs.Bounded
import ScriptFlow.Proofs.Current
import ScriptFlow.Proofs.Recovery
import ScriptFlow.Proofs.Failing
import ScriptFlow.Proofs.DepthFirst
import ScriptFlow.Proofs.Layers
import ScriptFlow.Proofs.Tables
import ScriptFlow.Proofs.Countdown
import ScriptFlow.Proofs.Slots
import ScriptFlow.Proofs.Partition
import ScriptFlow.Proofs.Lookups
import ScriptFlow.Proofs.Spacing
import ScriptFlow.Proofs.Encoding
import ScriptFlow.Proofs.Transit
import ScriptFlow.Proofs.Provision
import ScriptFlow.Proofs.Tags
import ScriptFlow.Proofs.Canonicity
import ScriptFlow.Proofs.Carrying
import ScriptFlow.Proofs.Relayout
import ScriptFlow.Proofs.EdgeIds
import ScriptFlow.Proofs.Connecting
import ScriptFlow.Proofs.Matching
import ScriptFlow.Proofs.Pairing
import ScriptFlow.Proofs.Overwriting
import ScriptFlow.Proofs.Addresses
import ScriptFlow.Proofs.Shifting
import ScriptFlow.Proofs.InOrder
import ScriptFlow.Proofs.Written
import ScriptFlow.Proofs.Scanning
import ScriptFlow.Proofs.Violations
import ScriptFlow.Proofs.Idle
import ScriptFlow.Proofs.Nearest
import ScriptFlow.Proofs.Numerals
import ScriptFlow.Proofs.Unambiguous
import ScriptFlow.Proofs.Sorted
import ScriptFlow.Proofs.Keyed
import ScriptFlow.Proofs.Fingerprint
import ScriptFlow.Proofs.StopSet
import ScriptFlow.Proofs.Resaving
