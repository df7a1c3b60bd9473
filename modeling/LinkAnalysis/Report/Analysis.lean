import LinkAnalysis.Centrality.Composite
import LinkAnalysis.Network.Statistics
import LinkAnalysis.Report.Basic
import LinkAnalysis.Centrality.Ranking
import LinkAnalysis.Route.Search
import LinkAnalysis.Route.Shortest

/-!
# Analyses

Every analysis builds the network of a snapshot, runs one computation on it and
reports the result.  An analysis depends on nothing but the snapshot, the
configuration and the signal of a token.
-/

namespace LinkAnalysis

variable {α : Type} [Score α]

def Network.groupRecord (net : Network) (position : Nat)
    (members : List Nat) : GroupRecord α :=
  let summary : GroupSummary α := net.summary members
  { number := position + 1
    members := members.map net.idOf
    density := summary.density
    central := summary.central.map net.idOf }

def Network.groupRecords (net : Network)
    (groups : List (List Nat)) : List (GroupRecord α) :=
  groups.zipIdx.map fun (members, position) => net.groupRecord position members

def Network.routeRecord (net : Network) (route : List Nat) : RouteRecord :=
  ⟨route.map net.idOf⟩

/-- The nodes with these ids; the first one that is unknown is the reason of a
refusal. -/
def Network.endpoints (net : Network) (source target : String) :
    Except Fault (Nat × Nat) :=
  match net.indexOf? source, net.indexOf? target with
  | some a, some b => .ok (a, b)
  | none, _ => .error (.unknownNode source)
  | some _, none => .error (.unknownNode target)

/-- The order of scored links: higher scores first, links whose scores do not
differ by key. -/
def ScoredLink.le (x y : ScoredLink α) : Bool :=
  if y.score < x.score then true
  else if x.score < y.score then false else decide (x.key ≤ y.key)

namespace Analysis

def betweenness (signal : Signal) (s : Snapshot) :
    Except Fault (BetweennessReport α) := do
  let net := Network.ofSnapshot s
  let scores : Betweenness α ← LinkAnalysis.betweenness signal net.adjacency
      net.linkCount
  return {
    basis := net.basis
    nodes := (rankedNodes scores.node).map fun ((v, score), rank) =>
      ⟨net.idOf v, s.labelOf (net.idOf v), score, rank⟩
    links := ((net.links.toList.zip scores.link.toList).map fun (link, score) =>
      (⟨link.key, score⟩ : ScoredLink α)).mergeSort ScoredLink.le }

def communities (config : Config α) (signal : Signal) (s : Snapshot) :
    Except Fault (CommunityReport α) := do
  let net := Network.ofSnapshot s
  let partition ← detectCommunities α signal net config.community
  let grouped := partition.communities.flatten
  return {
    basis := net.basis
    communities := net.groupRecords partition.communities
    ungrouped :=
      ((List.range net.size).filter fun v => !grouped.contains v).map net.idOf
    stopReason := partition.stopReason
    removed := partition.removed.map net.keyOf
    target := partition.target }

def brokers (config : Config α) (signal : Signal) (s : Snapshot) :
    Except Fault (BrokerReport α) := do
  let net := Network.ofSnapshot s
  let scores : Betweenness α ← LinkAnalysis.betweenness signal net.adjacency
      net.linkCount
  return {
    basis := net.basis
    threshold := config.brokerThreshold
    brokers := (LinkAnalysis.brokers scores.node config.brokerThreshold).map
      fun (v, score) =>
      ⟨net.idOf v, s.labelOf (net.idOf v), score⟩ }

def paths (config : Config α) (signal : Signal) (s : Snapshot)
    (source target : String) : Except Fault PathReport := do
  let net := Network.ofSnapshot s
  let (a, b) ← net.endpoints source target
  let found ← simplePaths signal net.adjacency a b config.paths
  return {
    basis := net.basis
    source := source
    target := target
    maxDepth := config.paths.maxDepth
    routes := found.paths.map net.routeRecord
    truncated := found.truncated }

def shortest (config : Config α) (signal : Signal) (s : Snapshot)
    (source target : String) : Except Fault (ShortestReport α) := do
  let net := Network.ofSnapshot s
  let (a, b) ← net.endpoints source target
  signal.check
  let g : Geodesics α := Geodesics.ofSource net.adjacency a
  let (routes, truncated) := g.routesTo b config.paths.maxPaths
  return {
    basis := net.basis
    source := source
    target := target
    distance := g.distanceTo b
    routeCount := g.countOf b
    routes := routes.map net.routeRecord
    truncated := truncated }

def components (signal : Signal) (s : Snapshot) :
    Except Fault (ComponentReport α) := do
  let net := Network.ofSnapshot s
  signal.check
  return {
    basis := net.basis
    components :=
      net.groupRecords (sortGroups (LinkAnalysis.components net.adjacency)) }

def statistics (s : Snapshot) : StatisticsReport α :=
  let net := Network.ofSnapshot s
  ⟨net.basis, net.statistics⟩

def centrality (config : Config α) (signal : Signal) (s : Snapshot) :
    Except Fault (CentralityReport α) := do
  let net := Network.ofSnapshot s
  let adj := net.adjacency
  let between :
      Betweenness α ← LinkAnalysis.betweenness signal adj net.linkCount
  let scores ← LinkAnalysis.centrality signal adj between.node config.weights
  return {
    basis := net.basis
    weights := config.weights
    nodes := (rankedNodes scores.composite).map fun ((v, score), rank) =>
      { id := net.idOf v
        label := s.labelOf (net.idOf v)
        degree := scores.degree.getD v 0
        degreeNormalized := scores.degreeNormalized.getD v Score.zero
        closeness := scores.closeness.getD v Score.zero
        betweenness := scores.betweenness.getD v Score.zero
        score := score
        rank := rank } }

def flows (s : Snapshot) : FlowReport :=
  let net := Network.ofSnapshot s
  { basis := net.basis
    flows := (classifyFlows s net).map fun (kind, edges) =>
      ⟨kind, edges.map fun e => ⟨e.source, e.target, e.label⟩⟩ }

end Analysis

inductive Query where
  | betweenness
  | communities
  | brokers
  | paths (source target : String)
  | shortest (source target : String)
  | components
  | statistics
  | centrality
  | flows
  deriving DecidableEq, Repr

def Query.answer (q : Query) (config : Config α) (signal : Signal)
    (s : Snapshot) : Except Fault (Report α) :=
  match q with
  | betweenness => (Analysis.betweenness signal s).map .betweenness
  | communities => (Analysis.communities config signal s).map .communities
  | brokers => (Analysis.brokers config signal s).map .brokers
  | paths source target =>
    (Analysis.paths config signal s source target).map .paths
  | shortest source target =>
    (Analysis.shortest config signal s source target).map .shortest
  | components => (Analysis.components signal s).map .components
  | statistics => .ok (.statistics (Analysis.statistics s))
  | centrality => (Analysis.centrality config signal s).map .centrality
  | flows => .ok (.flows (Analysis.flows s))

end LinkAnalysis
