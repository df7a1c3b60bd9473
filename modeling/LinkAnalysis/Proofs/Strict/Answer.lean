import LinkAnalysis.Proofs.Report.Connectivity
import LinkAnalysis.Proofs.Strict.Centrality
import LinkAnalysis.Proofs.Strict.Division
import LinkAnalysis.Proofs.Strict.Groups
import LinkAnalysis.Proofs.Strict.Routes

/-!
# Strict analyses

Each analysis as a strict program: the network of the snapshot, the computation,
and the report, which looks up the ids of nodes, the keys of links and the
scores by node.  No analysis of any snapshot gets stuck.
-/

namespace LinkAnalysis

namespace Strict

/-! ## Reports -/

section Reports

variable {α : Type} [Score α]

def routeRecord (net : Network) (route : List Nat) : Strict RouteRecord := do
  let nodes ← route.mapM (idOf net)
  return ⟨nodes⟩

def betweennessReport (signal : Signal) (s : Snapshot) :
    Strict (BetweennessReport α) := do
  let net ← network s
  let scores : Betweenness α ← betweenness signal net.adjacency net.linkCount
  let basis ← basis net
  let order ← rankedNodes scores.node
  let nodes ← order.mapM fun entry => do
    let id ← idOf net entry.1.1
    return (⟨id, s.labelOf id, entry.1.2, entry.2⟩ : RankedNode α)
  let links ← sort ScoredLink.le ((net.links.toList.zip scores.link.toList).map
    fun (link, score) => (⟨link.key, score⟩ : ScoredLink α))
  return { basis := basis, nodes := nodes, links := links }

def communitiesReport (config : Config α) (signal : Signal) (s : Snapshot) :
    Strict (CommunityReport α) := do
  let net ← network s
  let partition ← detectCommunities α signal net config.community
  let grouped ← mark net.size partition.communities.flatten
  let others ← (List.range net.size).filterM fun v => do
    let isGrouped ← fetch grouped v
    return !isGrouped
  let ungrouped ← others.mapM (idOf net)
  let basis ← basis net
  let communities ← groupRecords net partition.communities
  let removed ← partition.removed.mapM (fetch net.links)
  return {
    basis := basis
    communities := communities
    ungrouped := ungrouped
    stopReason := partition.stopReason
    removed := removed.map Link.key
    target := partition.target }

def brokersReport (config : Config α) (signal : Signal) (s : Snapshot) :
    Strict (BrokerReport α) := do
  let net ← network s
  let scores : Betweenness α ← betweenness signal net.adjacency net.linkCount
  let found ← brokers scores.node config.brokerThreshold
  let records ← found.mapM fun entry => do
    let id ← idOf net entry.1
    return (⟨id, s.labelOf id, entry.2⟩ : BrokerRecord α)
  let basis ← basis net
  return { basis := basis, threshold :=
    config.brokerThreshold, brokers := records }

def pathsReport (config : Config α) (signal : Signal) (s : Snapshot)
    (source target : String) : Strict PathReport := do
  let net ← network s
  let (a, b) ← lift (net.endpoints source target)
  let found ← simplePaths signal net.adjacency a b config.paths
  let basis ← basis net
  let routes ← found.paths.mapM (routeRecord net)
  return {
    basis := basis
    source := source
    target := target
    maxDepth := config.paths.maxDepth
    routes := routes
    truncated := found.truncated }

def shortestReport (config : Config α) (signal : Signal) (s : Snapshot)
    (source target : String) : Strict (ShortestReport α) := do
  let net ← network s
  let (a, b) ← lift (net.endpoints source target)
  poll signal
  let g : Geodesics α ← ofSource net.adjacency a
  let found ← routesTo g b config.paths.maxPaths
  let basis ← basis net
  let distance ← fetch g.distances b
  let routeCount ← fetch g.counts b
  let routes ← found.1.mapM (routeRecord net)
  return {
    basis := basis
    source := source
    target := target
    distance := distance
    routeCount := routeCount
    routes := routes
    truncated := found.2 }

def componentsReport (signal : Signal) (s : Snapshot) :
    Strict (ComponentReport α) := do
  let net ← network s
  poll signal
  let groups ← components net.adjacency
  let basis ← basis net
  let records ← groupRecords net (sortGroups groups)
  return { basis := basis, components := records }

def statisticsReport (s : Snapshot) : Strict (StatisticsReport α) := do
  let net ← network s
  let basis ← basis net
  let statistics ← statistics net
  return ⟨basis, statistics⟩

def centralityReport (config : Config α) (signal : Signal) (s : Snapshot) :
    Strict (CentralityReport α) := do
  let net ← network s
  let between : Betweenness α ← betweenness signal net.adjacency net.linkCount
  let scores ← centrality signal net.adjacency between.node config.weights
  let order ← rankedNodes scores.composite
  let nodes ← order.mapM fun entry => do
    let id ← idOf net entry.1.1
    let degree ← fetch scores.degree entry.1.1
    let degreeNormalized ← fetch scores.degreeNormalized entry.1.1
    let closeness ← fetch scores.closeness entry.1.1
    let betweenness ← fetch scores.betweenness entry.1.1
    return ({
      id := id
      label := s.labelOf id
      degree := degree
      degreeNormalized := degreeNormalized
      closeness := closeness
      betweenness := betweenness
      score := entry.1.2
      rank := entry.2 } : CentralityRecord α)
  let basis ← basis net
  return { basis := basis, weights := config.weights, nodes := nodes }

def flowsReport (s : Snapshot) : Strict FlowReport := do
  let net ← network s
  let basis ← basis net
  return {
    basis := basis
    flows := (classifyFlows s net).map fun (kind, edges) =>
      ⟨kind, edges.map fun e => ⟨e.source, e.target, e.label⟩⟩ }

def answer (q : Query) (config : Config α) (signal : Signal)
    (s : Snapshot) : Strict (Report α) :=
  match q with
  | .betweenness => .betweenness <$> betweennessReport signal s
  | .communities => .communities <$> communitiesReport config signal s
  | .brokers => .brokers <$> brokersReport config signal s
  | .paths source target => .paths <$> pathsReport config signal s source target
  | .shortest source target =>
    .shortest <$> shortestReport config signal s source target
  | .components => .components <$> componentsReport signal s
  | .statistics => .statistics <$> statisticsReport s
  | .centrality => .centrality <$> centralityReport config signal s
  | .flows => .flows <$> flowsReport s

end Reports

/-! ## No analysis gets stuck -/

section Structure

variable {α : Type} [Score α] (s : Snapshot)

theorem communitiesReport_eq (config : Config α) (signal : Signal) :
    communitiesReport config signal s =
      lift (Analysis.communities config signal s) := by
  rw [communitiesReport, network_eq, ok_bind, Analysis.communities]
  apply bind_eq_lift
    (detectCommunities_eq α (Network.simpleEnds_ofSnapshot s) signal _)
  intro p hp
  rcases lt_of_detectCommunities α hp with ⟨hremoved, hmembers⟩
  have hflatten : ∀ v ∈ p.communities.flatten,
      v < (Network.ofSnapshot s).size := by
    intro v hv
    rcases List.mem_flatten.mp hv with ⟨group, hgroup, hmem⟩
    exact hmembers group hgroup v hmem
  rcases mark_eq hflatten with ⟨grouped, hmark, hsize, hgrouped⟩
  have hothers : ∀ v ∈ List.range (Network.ofSnapshot s).size, (do
      let isGrouped ← fetch grouped v
      return !isGrouped) = .ok (!p.communities.flatten.contains v) := by
    intro v hv
    have hlt := List.mem_range.mp hv
    rw [fetch_of_lt (by rwa [hsize]) false, hgrouped v hlt]
    rfl
  have hkeys : p.removed.mapM (fetch (Network.ofSnapshot s).links) =
      .ok (p.removed.map fun e =>
      (Network.ofSnapshot s).links.getD e ⟨0, 0, ""⟩) :=
    mapM_eq_ok fun e he => fetch_of_lt (hremoved e he) _
  have hkeyOf : (p.removed.map fun e =>
      (Network.ofSnapshot s).links.getD e ⟨0, 0, ""⟩).map Link.key =
      p.removed.map (Network.ofSnapshot s).keyOf := by
    rw [List.map_map]
    apply List.map_congr_left
    intro e he
    have hget := Array.getElem?_eq_getElem (hremoved e he)
    rw [Function.comp_apply, Network.keyOf, Array.getD_eq_getD_getElem?, hget]
    rfl
  have hrange : ∀ v ∈ (List.range (Network.ofSnapshot s).size).filter fun v =>
      !p.communities.flatten.contains v, v < (Network.ofSnapshot s).size :=
    fun v hv => List.mem_range.mp (List.mem_of_mem_filter hv)
  rw [hmark, ok_bind, filterM_eq_ok hothers, ok_bind, mapM_idOf hrange,
    ok_bind, basis_eq, ok_bind, groupRecords_eq hmembers, ok_bind, hkeys,
    ok_bind, hkeyOf]
  rfl

theorem componentsReport_eq (signal : Signal) :
    (componentsReport signal s : Strict (ComponentReport α)) =
      lift (Analysis.components signal s) := by
  have hcomponents := components_eq (Network.closed_adjacency_ofSnapshot s)
  have hgroups : ∀ group ∈ sortGroups
        (LinkAnalysis.components (Network.ofSnapshot s).adjacency),
      ∀ v ∈ group, v < (Network.ofSnapshot s).size := by
    intro group hgroup v hv
    rw [sortGroups, List.mem_mergeSort, Network.components_ofSnapshot] at hgroup
    exact Network.lt_of_mem_componentsWithout
      (Network.simpleEnds_ofSnapshot s) [] hgroup hv
  rw [componentsReport, network_eq, ok_bind, Analysis.components]
  apply bind_eq_lift rfl
  intro _ _
  rw [hcomponents, ok_bind, basis_eq, ok_bind, groupRecords_eq hgroups]
  rfl

theorem statisticsReport_eq :
    (statisticsReport s : Strict (StatisticsReport α)) =
      .ok (Analysis.statistics s) := by
  rw [statisticsReport, network_eq, ok_bind, basis_eq, ok_bind, statistics_eq]
  rfl

theorem flowsReport_eq : flowsReport s = .ok (Analysis.flows s) := by
  rw [flowsReport, network_eq, ok_bind, basis_eq]
  rfl

end Structure

section Routes

variable {α : Type} (s : Snapshot)

theorem mapM_routeRecord
    {net : Network} {routes : List (List Nat)}
    (hroutes : ∀ route ∈ routes, ∀ v ∈ route, v < net.size) :
    routes.mapM (routeRecord net) = .ok (routes.map net.routeRecord) := by
  apply mapM_eq_ok
  intro route hroute
  rw [routeRecord, mapM_idOf (hroutes route hroute)]
  rfl

theorem pathsReport_eq
    (config : Config α) (signal : Signal) (source target : String) :
    pathsReport config signal s source target =
      lift (Analysis.paths config signal s source target) := by
  have hclosed := Network.closed_adjacency_ofSnapshot s
  have hsize := Network.size_adjacency_ofSnapshot s
  rw [pathsReport, network_eq, ok_bind, Analysis.paths]
  apply bind_eq_lift rfl
  intro ends hends
  have ha := (Network.nodes_of_endpoints hends).1.1.trans_eq hsize.symm
  apply bind_eq_lift (simplePaths_eq signal hclosed ha ends.2 config.paths)
  intro found hfound
  have hroutes : ∀ route ∈ found.paths, ∀ v ∈ route,
      v < (Network.ofSnapshot s).size :=
    fun route hroute v hv =>
      hsize ▸ lt_of_mem_simplePaths hclosed ha hfound hroute hv
  rw [basis_eq, ok_bind, mapM_routeRecord hroutes]
  rfl

theorem shortestReport_eq
    [Score α] (config : Config α) (signal : Signal) (source target : String) :
    shortestReport config signal s source target =
      lift (Analysis.shortest config signal s source target) := by
  have hclosed := Network.closed_adjacency_ofSnapshot s
  have hsize := Network.size_adjacency_ofSnapshot s
  rw [shortestReport, network_eq, ok_bind, Analysis.shortest]
  apply bind_eq_lift rfl
  intro ends hends
  apply bind_eq_lift rfl
  intro _ _
  have ha := (Network.nodes_of_endpoints hends).1.1.trans_eq hsize.symm
  have hb := (Network.nodes_of_endpoints hends).2.1.trans_eq hsize.symm
  have hfits := Geodesics.Fits.ofSource (α := α) hclosed ha
  have hroutes : ∀ route ∈ ((Geodesics.ofSource (Network.ofSnapshot s).adjacency
          ends.1 : Geodesics α).routesTo ends.2 config.paths.maxPaths).1,
      ∀ v ∈ route, v < (Network.ofSnapshot s).size :=
    fun route hroute v hv =>
      hsize ▸ Geodesics.lt_of_mem_routesTo hclosed ha hroute hv
  rw [ofSource_eq hclosed ha, ok_bind, routesTo_eq hclosed ha hb, ok_bind,
    basis_eq, ok_bind, fetch_of_lt (by rwa [hfits.size_distances]) none,
    ok_bind, fetch_of_lt (by rwa [hfits.size_counts]) ((0 : Nat) : α), ok_bind,
    mapM_routeRecord hroutes]
  rfl

end Routes

section Scores

variable (s : Snapshot)

theorem betweennessReport_eq (signal : Signal) :
    (betweennessReport signal s : Strict (BetweennessReport ℚ)) =
      lift (Analysis.betweenness signal s) := by
  have hsize := Network.size_adjacency_ofSnapshot s
  have hscores := betweenness_eq (α := ℚ) signal (Network.bounded_ofSnapshot s)
  rw [betweennessReport, network_eq, ok_bind, Analysis.betweenness]
  apply bind_eq_lift hscores.1
  intro scores hok
  have hnode : scores.node.size = (Network.ofSnapshot s).size :=
    ((hscores.2 scores hok).1).trans hsize
  have hrecord : ∀ entry ∈ LinkAnalysis.rankedNodes scores.node,
      (do
        let id ← idOf (Network.ofSnapshot s) entry.1.1
        return (⟨id, s.labelOf id, entry.1.2, entry.2⟩ : RankedNode ℚ)) =
        .ok ⟨(Network.ofSnapshot s).idOf entry.1.1,
          s.labelOf ((Network.ofSnapshot s).idOf entry.1.1), entry.1.2,
          entry.2⟩ := by
    intro entry hentry
    rw [idOf_of_lt ((lt_of_mem_rankedNodes hentry).trans_eq hnode)]
    rfl
  rw [basis_eq, ok_bind, rankedNodes_eq, ok_bind, mapM_eq_ok hrecord, ok_bind,
    sort_of_descending ScoredLink.le_descending]
  rfl

theorem brokersReport_eq (config : Config ℚ) (signal : Signal) :
    brokersReport config signal s =
      lift (Analysis.brokers config signal s) := by
  have hsize := Network.size_adjacency_ofSnapshot s
  have hscores := betweenness_eq (α := ℚ) signal (Network.bounded_ofSnapshot s)
  rw [brokersReport, network_eq, ok_bind, Analysis.brokers]
  apply bind_eq_lift hscores.1
  intro scores hok
  have hnode : scores.node.size = (Network.ofSnapshot s).size :=
    ((hscores.2 scores hok).1).trans hsize
  have hrecord :
      ∀ entry ∈ LinkAnalysis.brokers scores.node config.brokerThreshold,
      (do
        let id ← idOf (Network.ofSnapshot s) entry.1
        return (⟨id, s.labelOf id, entry.2⟩ : BrokerRecord ℚ)) =
        .ok ⟨(Network.ofSnapshot s).idOf entry.1,
          s.labelOf ((Network.ofSnapshot s).idOf entry.1), entry.2⟩ := by
    intro entry hentry
    rw [idOf_of_lt ((lt_of_mem_brokers hentry).trans_eq hnode)]
    rfl
  rw [brokers_eq, ok_bind, mapM_eq_ok hrecord, ok_bind, basis_eq]
  rfl

theorem centralityReport_eq (config : Config ℚ) (signal : Signal) :
    centralityReport config signal s =
      lift (Analysis.centrality config signal s) := by
  have hsize := Network.size_adjacency_ofSnapshot s
  have hbetween := betweenness_eq (α := ℚ) signal (Network.bounded_ofSnapshot s)
  rw [centralityReport, network_eq, ok_bind, Analysis.centrality]
  apply bind_eq_lift hbetween.1
  intro between hok
  apply bind_eq_lift (centrality_eq signal
    (Network.closed_adjacency_ofSnapshot s) between.node _)
  intro scores hscores
  have hfits := fits_centrality (hbetween.2 between hok).1 hscores
  have hrecord : ∀ entry ∈ LinkAnalysis.rankedNodes scores.composite, (do
      let id ← idOf (Network.ofSnapshot s) entry.1.1
      let degree ← fetch scores.degree entry.1.1
      let degreeNormalized ← fetch scores.degreeNormalized entry.1.1
      let closeness ← fetch scores.closeness entry.1.1
      let betweenness ← fetch scores.betweenness entry.1.1
      return ({
        id := id
        label := s.labelOf id
        degree := degree
        degreeNormalized := degreeNormalized
        closeness := closeness
        betweenness := betweenness
        score := entry.1.2
        rank := entry.2 } : CentralityRecord ℚ)) =
        .ok {
          id := (Network.ofSnapshot s).idOf entry.1.1
          label := s.labelOf ((Network.ofSnapshot s).idOf entry.1.1)
          degree := scores.degree.getD entry.1.1 0
          degreeNormalized := scores.degreeNormalized.getD entry.1.1 Score.zero
          closeness := scores.closeness.getD entry.1.1 Score.zero
          betweenness := scores.betweenness.getD entry.1.1 Score.zero
          score := entry.1.2
          rank := entry.2 } := by
    intro entry hentry
    have hlt := (lt_of_mem_rankedNodes hentry).trans_eq hfits.size_composite
    rw [idOf_of_lt (hlt.trans_eq hsize), ok_bind,
      fetch_of_lt (hlt.trans_eq hfits.size_degree.symm) 0, ok_bind, fetch_of_lt
      (hlt.trans_eq hfits.size_degreeNormalized.symm) Score.zero, ok_bind,
      fetch_of_lt (hlt.trans_eq hfits.size_closeness.symm) Score.zero, ok_bind,
      fetch_of_lt (hlt.trans_eq hfits.size_betweenness.symm) Score.zero]
    rfl
  rw [rankedNodes_eq, ok_bind, mapM_eq_ok hrecord, ok_bind, basis_eq]
  rfl

/-- In exact arithmetic the strict program comes to the answer of the total
one. -/
theorem answer_eq_lift
    (q : Query) (config : Config ℚ) (signal : Signal) :
    answer q config signal s = lift (q.answer config signal s) := by
  cases q with
  | betweenness =>
      rw [answer, betweennessReport_eq, Query.answer, lift_map]; rfl
  | communities =>
      rw [answer, communitiesReport_eq, Query.answer, lift_map]; rfl
  | brokers => rw [answer, brokersReport_eq, Query.answer, lift_map]; rfl
  | paths source target =>
      rw [answer, pathsReport_eq, Query.answer, lift_map]; rfl
  | shortest source target =>
      rw [answer, shortestReport_eq, Query.answer, lift_map]; rfl
  | components => rw [answer, componentsReport_eq, Query.answer, lift_map]; rfl
  | statistics => rw [answer, statisticsReport_eq, Query.answer]; rfl
  | centrality => rw [answer, centralityReport_eq, Query.answer, lift_map]; rfl
  | flows => rw [answer, flowsReport_eq, Query.answer]; rfl

end Scores

end Strict

end LinkAnalysis
