import LinkAnalysis.Command.Layout
import LinkAnalysis.Report.Basic

/-!
# Reports in prose

Every report as lines of prose, in either style.  Rows of the plain style hold
what other programs need; the pretty style adds headings, labels and notes.
-/

namespace LinkAnalysis.Command

def diagnosticsLines (pretty : Bool) (b : Basis) : List String :=
  [(b.diagnostics.dropped, "edges reference unknown nodes"),
    (b.diagnostics.duplicates, "duplicate edges merged"),
    (b.diagnostics.selfLoops, "self-loops ignored")].filterMap fun (n, what) =>
      if n = 0 then none
      else
        some ((if pretty then "note: " else "# ") ++ toString n ++ " " ++ what)

structure GroupNoun where
  inner : String
  initial : String

def GroupNoun.community : GroupNoun := ⟨"community", "Community"⟩

def GroupNoun.component : GroupNoun := ⟨"component", "Component"⟩

def groupLines (noun : GroupNoun) (pretty : Bool)
    (g : GroupRecord Float) : List String :=
  let central := g.central.getD "-"
  if pretty then
    ["", noun.initial ++ " " ++ toString g.number ++ " (" ++
      toString g.size ++ " members)", entry "density" (showScore g.density),
      entry "central" central, entry "members" (", ".intercalate g.members)]
  else
    ["  ".intercalate [toString g.number, toString g.size, showScore g.density,
        central, ",".intercalate g.members]]

def groupsLines (noun : GroupNoun) (pretty : Bool) :
    List (GroupRecord Float) → List String
  | [] => ["No " ++ noun.inner ++ "s found."]
  | groups => groups.flatMap (groupLines noun pretty)

def betweennessLines (pretty : Bool)
    (r : BetweennessReport Float) : List String :=
  let body :=
    if pretty then
      heading "Betweenness centrality"
        ++ (if r.nodes.isEmpty then ["No nodes."] else [])
        ++ r.nodes.map (fun n =>
          rightCell 4 (toString n.rank) ++ "  " ++ leftCell 24 n.id ++ " " ++
            leftCell 24 n.label ++ " " ++ showScore n.score)
        ++ (if r.links.isEmpty then []
          else
            "" :: heading "Busiest relationships" ++
              (r.links.take 5).map fun l =>
                leftCell 40 l.key ++ " " ++ Decimal.fixed 1 l.score)
    else
      r.nodes.map fun n =>
        "  ".intercalate [toString n.rank, n.id, showScore n.score]
  body ++ diagnosticsLines pretty r.basis

def centralityRow (rank entity score degree closeness betweenness : String) :
    String :=
  rightCell 4 rank ++ "  " ++ leftCell 24 entity ++ " " ++ rightCell 7 score ++
    " " ++ rightCell 6 degree ++ " " ++ rightCell 9 closeness ++ " " ++
    rightCell 11 betweenness

def centralityLines (pretty : Bool)
    (r : CentralityReport Float) : List String :=
  let weight := Decimal.Form.prose.write
  let body :=
    if pretty then
      heading "Composite centrality" ++
        [entry "weights" ("degree " ++ weight r.weights.degree ++
            " / closeness " ++ weight r.weights.closeness ++
            " / betweenness " ++ weight r.weights.betweenness),
          "",
          if r.nodes.isEmpty then "No nodes."
          else
            centralityRow "rank" "entity" "score" "degree" "closeness"
              "betweenness"]
        ++ r.nodes.map fun n =>
          centralityRow (toString n.rank) n.label (showScore n.score)
            (toString n.degree) (showScore n.closeness)
            (showScore n.betweenness)
    else
      r.nodes.map fun n =>
        "  ".intercalate [toString n.rank, n.id, showScore n.score,
          toString n.degree, showScore n.closeness, showScore n.betweenness]
  body ++ diagnosticsLines pretty r.basis

/-- A community report; in the pretty style with the removed links and the nodes
left over. -/
def communityLines (pretty : Bool) (r : CommunityReport Float) : List String :=
  let stop := r.stopReason.condition ++ " (" ++ r.stopReason.name ++ ")"
  let top :=
    if pretty then
      heading ("Communities (" ++ toString r.communities.length ++ ")") ++
        [entry "stopped" stop, entry "iterations" (toString r.iterations)] ++
        (if r.removed.isEmpty then []
          else [entry "cut" (", ".intercalate r.removed)]) ++
        (if r.stopReason.isApproximation then
            ["note: iteration budget reached; partition is approximate"]
          else [])
    else ["# stop " ++ stop ++ " iterations " ++ toString r.iterations]
  let rest :=
    if pretty && !r.ungrouped.isEmpty then
      ["", entry "ungrouped" (", ".intercalate r.ungrouped)]
    else []
  top ++ groupsLines .community pretty r.communities ++ rest ++
    diagnosticsLines pretty r.basis

def componentLines (pretty : Bool) (r : ComponentReport Float) : List String :=
  (if pretty then
      heading ("Connected components (" ++ toString r.components.length ++ ")")
    else [])
    ++ groupsLines .component pretty r.components
    ++ diagnosticsLines pretty r.basis

def brokerLines (pretty : Bool) (r : BrokerReport Float) : List String :=
  (if pretty then
      heading ("Brokers (betweenness > " ++ showScore r.threshold ++ ")")
    else [])
    ++ (if r.brokers.isEmpty then
        ["No brokers above threshold " ++ showScore r.threshold ++ "."]
      else [])
    ++ r.brokers.map (fun b =>
      if pretty then
        leftCell 24 b.id ++ " " ++ leftCell 24 b.label ++ " " ++
          showScore b.score
      else b.id ++ "  " ++ showScore b.score)
    ++ diagnosticsLines pretty r.basis

def arrow : String := " → "

def routeLines (pretty : Bool) (routes : List RouteRecord) : List String :=
  routes.map fun r =>
    if pretty then
      "  [" ++ toString r.length ++ "] " ++ arrow.intercalate r.nodes
    else toString r.length ++ "  " ++ ",".intercalate r.nodes

def pathLines (pretty : Bool) (r : PathReport) : List String :=
  (if pretty then
      heading ("Paths " ++ r.source ++ arrow ++ r.target ++ " (max depth " ++
        toString r.maxDepth ++ ")")
    else [])
    ++ (if r.routes.isEmpty then
        ["No paths within depth " ++ toString r.maxDepth ++ "."]
      else [])
    ++ routeLines pretty r.routes
    ++ (if r.truncated then
        [if pretty then "note: search budget reached; more paths may exist"
          else "# truncated"]
      else [])
    ++ diagnosticsLines pretty r.basis

def shortestLines (pretty : Bool) (r : ShortestReport Float) : List String :=
  let distance := r.distance.elim "unreachable" toString
  let routeCount := Decimal.Form.prose.write r.routeCount
  (if pretty then
      heading ("Shortest paths " ++ r.source ++ arrow ++ r.target)
        ++ [entry "distance" distance, entry "paths" routeCount]
    else ["# distance " ++ distance ++ " paths " ++ routeCount])
    ++ routeLines pretty r.routes
    ++ (if r.truncated then
        [if pretty then
            "note: showing " ++ toString r.routes.length ++ " of " ++ routeCount
          else "# truncated"]
      else [])
    ++ diagnosticsLines pretty r.basis

def statisticsLines (pretty : Bool)
    (r : StatisticsReport Float) : List String :=
  let s := r.statistics
  let rows := [
    ("nodes", "nodes", toString s.nodeCount),
    ("edges", "edges", toString s.linkCount),
    ("density", "density", showScore s.density),
    ("avg degree", "avg_degree", Decimal.fixed 2 s.averageDegree),
    ("max degree", "max_degree", toString s.maxDegree),
    ("components", "components", toString s.componentCount),
    ("isolated", "isolated", toString s.isolatedCount),
    ("hash", "hash", r.basis.fingerprint)]
  (if pretty then
      heading "Network statistics" ++ rows.map fun (name, _, value) =>
        entry name value
    else rows.map fun (_, name, value) => name ++ "\t" ++ value)
    ++ diagnosticsLines pretty r.basis

def flowClassLines (pretty : Bool) (c : FlowClass) : List String :=
  if pretty then
    if c.relations.isEmpty then []
    else
      heading (c.kind.name ++ " (" ++ toString c.count ++ ")")
        ++ c.relations.map (fun r =>
          "  " ++ r.source ++ arrow ++ r.target ++ "  " ++
            (if r.label = "" then "-" else r.label))
        ++ [""]
  else
    c.relations.map fun r =>
      "\t".intercalate [c.kind.name, r.source, r.target, r.label]

def flowLines (pretty : Bool) (r : FlowReport) : List String :=
  r.flows.flatMap (flowClassLines pretty) ++ diagnosticsLines pretty r.basis

def reportLines (pretty : Bool) : Report Float → List String
  | .betweenness r => betweennessLines pretty r
  | .communities r => communityLines pretty r
  | .brokers r => brokerLines pretty r
  | .paths r => pathLines pretty r
  | .shortest r => shortestLines pretty r
  | .components r => componentLines pretty r
  | .statistics r => statisticsLines pretty r
  | .centrality r => centralityLines pretty r
  | .flows r => flowLines pretty r

end LinkAnalysis.Command
