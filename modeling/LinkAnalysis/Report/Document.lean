import LinkAnalysis.Config.Writing
import LinkAnalysis.Report.Basic

/-!
# Documents of reports

Every report has a JSON document.  Its fields stand in a fixed order, what is
missing is written as null, and so is a score that is not finite.
-/

namespace LinkAnalysis

open Json (Value)

def Basis.toValue (b : Basis) : Value :=
  .record [("node_count", .count b.nodeCount), ("edge_count",
      .count b.linkCount), ("dropped_edges", .count b.diagnostics.dropped),
    ("duplicate_edges", .count b.diagnostics.duplicates), ("self_loops",
      .count b.diagnostics.selfLoops), ("snapshot_hash", .text b.fingerprint)]

def RankedNode.toValue (n : RankedNode Float) : Value :=
  .record [("node_id", .text n.id), ("label", .text n.label),
    ("score", .score n.score), ("rank", .count n.rank)]

def ScoredLink.toValue (l : ScoredLink Float) : Value :=
  .record [("key", .text l.key), ("score", .score l.score)]

def BetweennessReport.toValue (r : BetweennessReport Float) : Value :=
  .record [("diagnostics", r.basis.toValue),
    ("nodes", .list (r.nodes.map RankedNode.toValue)),
    ("edges", .list (r.links.map ScoredLink.toValue))]

def GroupRecord.toValue (g : GroupRecord Float) : Value :=
  .record [("community_id", .count g.number), ("members", .texts g.members),
    ("size", .count g.size), ("density", .score g.density),
    ("central_node", .optional .text g.central)]

def CommunityReport.toValue (r : CommunityReport Float) : Value :=
  .record [("diagnostics", r.basis.toValue),
    ("communities", .list (r.communities.map GroupRecord.toValue)),
    ("ungrouped", .texts r.ungrouped), ("stop_reason", .text r.stopReason.name),
    ("stop_condition", .text r.stopReason.condition), ("approximate",
      .flag r.stopReason.isApproximation), ("iterations", .count r.iterations),
    ("removed_edges", .texts r.removed), ("target", .count r.target)]

def BrokerRecord.toValue (b : BrokerRecord Float) : Value :=
  .record [("node_id", .text b.id), ("label", .text b.label),
    ("score", .score b.score)]

def BrokerReport.toValue (r : BrokerReport Float) : Value :=
  .record [("diagnostics", r.basis.toValue), ("threshold", .score r.threshold),
    ("brokers", .list (r.brokers.map BrokerRecord.toValue))]

def RouteRecord.toValue (r : RouteRecord) : Value :=
  .record [("nodes", .texts r.nodes), ("length", .count r.length)]

def PathReport.toValue (r : PathReport) : Value :=
  .record [("diagnostics", r.basis.toValue), ("from", .text r.source),
    ("to", .text r.target), ("max_depth", .count r.maxDepth),
    ("paths", .list (r.routes.map RouteRecord.toValue)),
    ("truncated", .flag r.truncated)]

def ShortestReport.toValue (r : ShortestReport Float) : Value :=
  .record [("diagnostics", r.basis.toValue), ("from", .text r.source),
    ("to", .text r.target), ("distance", .optional .count r.distance),
    ("path_count", .score r.routeCount),
    ("paths", .list (r.routes.map RouteRecord.toValue)),
    ("truncated", .flag r.truncated)]

def ComponentReport.toValue (r : ComponentReport Float) : Value :=
  .record [("diagnostics", r.basis.toValue),
    ("components", .list (r.components.map GroupRecord.toValue))]

def Statistics.toValue (s : Statistics Float) : Value :=
  .record [("node_count", .count s.nodeCount),
    ("edge_count", .count s.linkCount), ("density", .score s.density),
    ("average_degree", .score s.averageDegree), ("component_count",
      .count s.componentCount), ("isolated_node_count", .count s.isolatedCount),
    ("max_degree", .count s.maxDegree)]

def StatisticsReport.toValue (r : StatisticsReport Float) : Value :=
  .record [("diagnostics", r.basis.toValue), ("stats", r.statistics.toValue)]

def CentralityRecord.toValue (c : CentralityRecord Float) : Value :=
  .record [("node_id", .text c.id), ("label", .text c.label), ("degree",
      .count c.degree), ("degree_normalized", .score c.degreeNormalized),
    ("closeness", .score c.closeness), ("betweenness", .score c.betweenness),
    ("score", .score c.score), ("rank", .count c.rank)]

def CentralityReport.toValue (r : CentralityReport Float) : Value :=
  .record [("diagnostics", r.basis.toValue), ("weights", r.weights.toValue),
    ("nodes", .list (r.nodes.map CentralityRecord.toValue))]

def FlowRelation.toValue (r : FlowRelation) : Value :=
  .record [("from", .text r.source), ("to", .text r.target),
    ("label", .text r.label)]

def FlowClass.toValue (c : FlowClass) : Value :=
  .record [("kind", .text c.kind.name), ("count", .count c.count),
    ("relations", .list (c.relations.map FlowRelation.toValue))]

def FlowReport.toValue (r : FlowReport) : Value :=
  .record [("diagnostics", r.basis.toValue),
    ("flows", .list (r.flows.map FlowClass.toValue))]

def Report.toValue : Report Float → Value
  | betweenness r => r.toValue
  | communities r => r.toValue
  | brokers r => r.toValue
  | paths r => r.toValue
  | shortest r => r.toValue
  | components r => r.toValue
  | statistics r => r.toValue
  | centrality r => r.toValue
  | flows r => r.toValue

end LinkAnalysis
