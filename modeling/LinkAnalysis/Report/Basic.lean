import LinkAnalysis.Community.Detection
import LinkAnalysis.Flow.Basic
import LinkAnalysis.Network.Statistics

/-!
# Reports

What the analyses answer.  Reports speak of ids, labels and keys, never of node
numbers, and each of them says on what network it is based.
-/

namespace LinkAnalysis

/-- How a snapshot was understood. -/
structure Basis where
  nodeCount : Nat
  linkCount : Nat
  diagnostics : Diagnostics
  fingerprint : String
  deriving DecidableEq, Repr

def Network.basis (net : Network) : Basis :=
  ⟨net.size, net.linkCount, net.diagnostics, net.fingerprint⟩

structure RankedNode (α : Type) where
  id : String
  label : String
  score : α
  rank : Nat
  deriving DecidableEq, Repr

structure ScoredLink (α : Type) where
  key : String
  score : α
  deriving DecidableEq, Repr

/-- Normalized betweenness of the nodes and raw betweenness of the links, both
highest first. -/
structure BetweennessReport (α : Type) where
  basis : Basis
  nodes : List (RankedNode α)
  links : List (ScoredLink α)
  deriving DecidableEq, Repr

structure GroupRecord (α : Type) where
  number : Nat
  members : List String
  density : α
  central : Option String
  deriving DecidableEq, Repr

def GroupRecord.size {α : Type} (g : GroupRecord α) : Nat := g.members.length

structure CommunityReport (α : Type) where
  basis : Basis
  communities : List (GroupRecord α)
  ungrouped : List String
  stopReason : StopReason
  removed : List String
  target : Nat
  deriving DecidableEq, Repr

def CommunityReport.iterations {α : Type} (r : CommunityReport α) : Nat :=
  r.removed.length

structure BrokerRecord (α : Type) where
  id : String
  label : String
  score : α
  deriving DecidableEq, Repr

structure BrokerReport (α : Type) where
  basis : Basis
  threshold : α
  brokers : List (BrokerRecord α)
  deriving DecidableEq, Repr

structure RouteRecord where
  nodes : List String
  deriving DecidableEq, Repr

def RouteRecord.length (r : RouteRecord) : Nat := r.nodes.length - 1

structure PathReport where
  basis : Basis
  source : String
  target : String
  maxDepth : Nat
  routes : List RouteRecord
  truncated : Bool
  deriving DecidableEq, Repr

structure ShortestReport (α : Type) where
  basis : Basis
  source : String
  target : String
  distance : Option Nat
  routeCount : α
  routes : List RouteRecord
  truncated : Bool
  deriving DecidableEq, Repr

structure ComponentReport (α : Type) where
  basis : Basis
  components : List (GroupRecord α)
  deriving DecidableEq, Repr

structure StatisticsReport (α : Type) where
  basis : Basis
  statistics : Statistics α
  deriving DecidableEq, Repr

structure CentralityRecord (α : Type) where
  id : String
  label : String
  degree : Nat
  degreeNormalized : α
  closeness : α
  betweenness : α
  score : α
  rank : Nat
  deriving DecidableEq, Repr

structure CentralityReport (α : Type) where
  basis : Basis
  weights : Weights α
  nodes : List (CentralityRecord α)
  deriving DecidableEq, Repr

structure FlowRelation where
  source : String
  target : String
  label : String
  deriving DecidableEq, Repr

structure FlowClass where
  kind : FlowKind
  relations : List FlowRelation
  deriving DecidableEq, Repr

def FlowClass.count (c : FlowClass) : Nat := c.relations.length

structure FlowReport where
  basis : Basis
  flows : List FlowClass
  deriving DecidableEq, Repr

inductive Report (α : Type) where
  | betweenness (report : BetweennessReport α)
  | communities (report : CommunityReport α)
  | brokers (report : BrokerReport α)
  | paths (report : PathReport)
  | shortest (report : ShortestReport α)
  | components (report : ComponentReport α)
  | statistics (report : StatisticsReport α)
  | centrality (report : CentralityReport α)
  | flows (report : FlowReport)
  deriving DecidableEq, Repr

end LinkAnalysis
