import LinkAnalysis.Analyzer.Bench
import LinkAnalysis.Analyzer.Session
import LinkAnalysis.Cancellation
import LinkAnalysis.Centrality.Betweenness
import LinkAnalysis.Centrality.Composite
import LinkAnalysis.Centrality.Ranking
import LinkAnalysis.Command.Arguments
import LinkAnalysis.Command.Failure
import LinkAnalysis.Command.Files
import LinkAnalysis.Command.Layout
import LinkAnalysis.Command.Prose
import LinkAnalysis.Command.Run
import LinkAnalysis.Community.Detection
import LinkAnalysis.Config.Basic
import LinkAnalysis.Config.Notation
import LinkAnalysis.Config.Setting
import LinkAnalysis.Config.Writing
import LinkAnalysis.Decimal.Reading
import LinkAnalysis.Decimal.Shortest
import LinkAnalysis.Decimal.Text
import LinkAnalysis.Digest.Blake3
import LinkAnalysis.Fault
import LinkAnalysis.Flow.Basic
import LinkAnalysis.Json.Draft
import LinkAnalysis.Json.Record
import LinkAnalysis.Json.Token
import LinkAnalysis.Json.Value
import LinkAnalysis.Main
import LinkAnalysis.Network.Adjacency
import LinkAnalysis.Network.Basic
import LinkAnalysis.Network.Components
import LinkAnalysis.Network.Geodesics
import LinkAnalysis.Network.Statistics
import LinkAnalysis.Proofs.Analyzer.Cancellation
import LinkAnalysis.Proofs.Analyzer.Holders
import LinkAnalysis.Proofs.Centrality.Accumulation
import LinkAnalysis.Proofs.Centrality.Betweenness
import LinkAnalysis.Proofs.Centrality.Broker
import LinkAnalysis.Proofs.Centrality.Composite
import LinkAnalysis.Proofs.Centrality.Forgetting
import LinkAnalysis.Proofs.Centrality.Locality
import LinkAnalysis.Proofs.Centrality.Normalized
import LinkAnalysis.Proofs.Command.Options
import LinkAnalysis.Proofs.Command.Outcome
import LinkAnalysis.Proofs.Command.Printing
import LinkAnalysis.Proofs.Community.Budget
import LinkAnalysis.Proofs.Community.Cuts
import LinkAnalysis.Proofs.Community.Division
import LinkAnalysis.Proofs.Community.Greedy
import LinkAnalysis.Proofs.Community.Reported
import LinkAnalysis.Proofs.Community.Selection
import LinkAnalysis.Proofs.Community.Summary
import LinkAnalysis.Proofs.Community.TwinCliques
import LinkAnalysis.Proofs.Config.Editing
import LinkAnalysis.Proofs.Config.Fields
import LinkAnalysis.Proofs.Graph.Closeness
import LinkAnalysis.Proofs.Graph.Deletion
import LinkAnalysis.Proofs.Graph.Density
import LinkAnalysis.Proofs.Graph.Dependency
import LinkAnalysis.Proofs.Graph.Extremes
import LinkAnalysis.Proofs.Graph.Forest
import LinkAnalysis.Proofs.Graph.ShortestWalks
import LinkAnalysis.Proofs.Graph.TwinCliques
import LinkAnalysis.Proofs.Json.Fitting
import LinkAnalysis.Proofs.Json.Form
import LinkAnalysis.Proofs.Json.Grammar
import LinkAnalysis.Proofs.Json.Inscription
import LinkAnalysis.Proofs.Json.Reading
import LinkAnalysis.Proofs.Json.Recognition
import LinkAnalysis.Proofs.Json.Record
import LinkAnalysis.Proofs.Json.Scanning
import LinkAnalysis.Proofs.Json.Writing
import LinkAnalysis.Proofs.Network.Canonical
import LinkAnalysis.Proofs.Network.Components
import LinkAnalysis.Proofs.Network.Courses
import LinkAnalysis.Proofs.Network.DisjointSets
import LinkAnalysis.Proofs.Network.Embedding
import LinkAnalysis.Proofs.Network.Enlargement
import LinkAnalysis.Proofs.Network.Fingerprint
import LinkAnalysis.Proofs.Network.GroupOrder
import LinkAnalysis.Proofs.Network.Intake
import LinkAnalysis.Proofs.Network.LinkGraph
import LinkAnalysis.Proofs.Network.Listing
import LinkAnalysis.Proofs.Network.Neighbors
import LinkAnalysis.Proofs.Network.Partition
import LinkAnalysis.Proofs.Network.Reachability
import LinkAnalysis.Proofs.Network.Rearrangement
import LinkAnalysis.Proofs.Network.Removal
import LinkAnalysis.Proofs.Network.Search
import LinkAnalysis.Proofs.Rational
import LinkAnalysis.Proofs.Report.Brokers
import LinkAnalysis.Proofs.Report.Communities
import LinkAnalysis.Proofs.Report.Connectivity
import LinkAnalysis.Proofs.Report.Density
import LinkAnalysis.Proofs.Report.Flows
import LinkAnalysis.Proofs.Report.Groups
import LinkAnalysis.Proofs.Report.Outcome
import LinkAnalysis.Proofs.Report.Rankings
import LinkAnalysis.Proofs.Report.Ranks
import LinkAnalysis.Proofs.Report.Rearrangement
import LinkAnalysis.Proofs.Report.Statistics
import LinkAnalysis.Proofs.Report.Words
import LinkAnalysis.Proofs.Route.Agreement
import LinkAnalysis.Proofs.Route.Attempts
import LinkAnalysis.Proofs.Route.Backtracking
import LinkAnalysis.Proofs.Route.Budget
import LinkAnalysis.Proofs.Route.Counting
import LinkAnalysis.Proofs.Route.Enumeration
import LinkAnalysis.Proofs.Route.Heads
import LinkAnalysis.Proofs.Route.Order
import LinkAnalysis.Proofs.Route.Search
import LinkAnalysis.Proofs.Route.Shortest
import LinkAnalysis.Proofs.Route.Simple
import LinkAnalysis.Proofs.Score.Counts
import LinkAnalysis.Proofs.Score.Extended
import LinkAnalysis.Proofs.Score.Scale
import LinkAnalysis.Proofs.Snapshot.Contract
import LinkAnalysis.Proofs.Snapshot.Spelling
import LinkAnalysis.Proofs.Snapshot.Validation
import LinkAnalysis.Proofs.Strict.Answer
import LinkAnalysis.Proofs.Strict.Basic
import LinkAnalysis.Proofs.Strict.Betweenness
import LinkAnalysis.Proofs.Strict.Centrality
import LinkAnalysis.Proofs.Strict.Components
import LinkAnalysis.Proofs.Strict.Division
import LinkAnalysis.Proofs.Strict.Geodesics
import LinkAnalysis.Proofs.Strict.Groups
import LinkAnalysis.Proofs.Strict.Network
import LinkAnalysis.Proofs.Strict.Routes
import LinkAnalysis.Proofs.Strict.Words
import LinkAnalysis.Proofs.Text.ByteOrder
import LinkAnalysis.Proofs.Text.Symbols
import LinkAnalysis.Report.Analysis
import LinkAnalysis.Report.Basic
import LinkAnalysis.Report.Document
import LinkAnalysis.Route.Search
import LinkAnalysis.Route.Shortest
import LinkAnalysis.Score
import LinkAnalysis.Snapshot.Basic
import LinkAnalysis.Snapshot.Writing
import LinkAnalysis.Text.CaseTable
import LinkAnalysis.Text.Symbols
import LinkAnalysis.Toml.Document
import LinkAnalysis.Toml.Number
import LinkAnalysis.Toml.Table
import LinkAnalysis.Toml.Text
import LinkAnalysis.Toml.Value
