import LinkAnalysis.Proofs.Network.Partition
import LinkAnalysis.Proofs.Strict.Basic
import LinkAnalysis.Report.Basic

/-!
# Strict networks

Building the network of a snapshot looks up the ends of links, the rows of nodes
and the ids of ends.  All ends of links are nodes, so nothing of this gets
stuck.
-/

namespace LinkAnalysis

/-- Every step over links leads to a node, along one of `m` links. -/
structure Adjacency.Bounded (adj : Adjacency) (m : Nat) : Prop where
  closed : adj.Closed
  position_lt : ∀ v, ∀ step ∈ adj.neighbors v, step.2 < m

theorem Adjacency.bounded_ofEnds
    {n : Nat} {ends : Array (Nat × Nat)} {active : List Nat}
    (hends : SimpleEnds n ends)
    (hactive : ActiveLinks ends active) :
    (Adjacency.ofEnds n ends active).Bounded ends.size where
  closed := (hends.inRange hactive).closed
  position_lt _ step hstep :=
    hactive.lt_size step.2 (mem_neighbors_ofEnds.mp hstep).2.1

theorem Network.bounded_ofSnapshot (s : Snapshot) :
    (ofSnapshot s).adjacency.Bounded (ofSnapshot s).linkCount := by
  have hbounded := Adjacency.bounded_ofEnds (simpleEnds_ofSnapshot s)
    (activeLinks_range (ofSnapshot s))
  rw [size_ends] at hbounded
  rw [adjacency_ofSnapshot]
  exact hbounded

namespace Strict

/-! ## Adjacencies -/

def neighbors (adj : Adjacency) (v : Nat) : Strict (Array (Nat × Nat)) :=
  fetch adj.rows v

def degree (adj : Adjacency) (v : Nat) : Strict Nat := do
  let row ← neighbors adj v
  return row.size

def addEnds (ends : Array (Nat × Nat)) (rows : Array (List (Nat × Nat)))
    (position : Nat) : Strict (Array (List (Nat × Nat))) := do
  let pair ← fetch ends position
  let rows ← adjust rows pair.1 ((pair.2, position) :: ·)
  adjust rows pair.2 ((pair.1, position) :: ·)

def ofEnds (n : Nat) (ends : Array (Nat × Nat))
    (active : List Nat) : Strict Adjacency := do
  let rows ← active.foldlM (addEnds ends) (Array.replicate n [])
  return ⟨rows.map fun row => (row.mergeSort neighborLe).toArray⟩

theorem neighbors_of_lt
    {adj : Adjacency} {v : Nat}
    (hv : v < adj.size) :
    neighbors adj v = .ok (adj.neighbors v) :=
  fetch_of_lt hv _

theorem degree_of_lt
    {adj : Adjacency} {v : Nat}
    (hv : v < adj.size) :
    degree adj v = .ok (adj.degree v) := by
  rw [degree, neighbors_of_lt hv]
  rfl

theorem addEnds_eq
    {ends : Array (Nat × Nat)} {rows : Array (List (Nat × Nat))}
    {position a b : Nat}
    (hget : ends[position]? = some (a, b))
    (ha : a < rows.size)
    (hb : b < rows.size) :
    addEnds ends rows position =
      .ok (Adjacency.addEnds ends rows position) := by
  have hb' : b < (rows.modify a ((b, position) :: ·)).size := by
    rwa [Array.size_modify]
  rw [addEnds, fetch_of_getElem? hget, ok_bind, adjust_of_lt ha, ok_bind,
    adjust_of_lt hb', Adjacency.addEnds, hget]

theorem ofEnds_eq
    {n : Nat} {ends : Array (Nat × Nat)} {active : List Nat}
    (hrange : Adjacency.InRange n ends active) :
    ofEnds n ends active = .ok (Adjacency.ofEnds n ends active) := by
  have hstep : ∀ rows : Array (List (Nat × Nat)), rows.size = n →
      ∀ position ∈ active,
        addEnds ends rows position =
          .ok (Adjacency.addEnds ends rows position) ∧
        (Adjacency.addEnds ends rows position).size = n := by
    intro rows hsize position hposition
    rcases hrange position hposition with ⟨a, b, hget, ha, hb⟩
    rw [Adjacency.size_addEnds]
    exact ⟨addEnds_eq hget (hsize ▸ ha) (hsize ▸ hb), hsize⟩
  have hrows :=
    (foldlM_eq_ok hstep (Array.replicate n []) Array.size_replicate).1
  rw [ofEnds, hrows]
  rfl

/-! ## Networks -/

/-- An edge can be added between two nodes. -/
def addEdge (g : PlainGraph) (a b label : Nat) : Strict PlainGraph := do
  require (a < g.nodeCount ∧ b < g.nodeCount)
  return g.addEdge a b label

def network (s : Snapshot) : Strict Network := do
  let ids := Network.sortedIds s
  let roster := Roster.ofIds ids
  let intake := s.edges.foldl (Intake.take roster.numbers) ⟨[], ⟨0, 0, 0⟩⟩
  let links := intake.links.reverse.mergeSort Link.le
  let graph ← links.zipIdx.foldlM
      (fun g (l, position) => addEdge g l.low l.high position) roster.graph
  let adjacency ← ofEnds ids.length (links.map Link.ends).toArray
      (List.range links.length)
  return {
    graph := graph
    numbers := roster.numbers
    links := links.toArray
    adjacency := adjacency
    diagnostics := intake.diagnostics }

def idOf (net : Network) (v : Nat) : Strict String := fetch net.ids v

def fingerprint (net : Network) : Strict String := do
  let ends ← net.links.toList.mapM fun l => do
    let low ← idOf net l.low
    let high ← idOf net l.high
    return Network.idBytes low ++ Network.idBytes high
  return "blake3:" ++ Digest.Blake3.hex
    (net.ids.toList.flatMap Network.idBytes ++ 1 :: ends.flatten)

def basis (net : Network) : Strict Basis := do
  let fingerprint ← fingerprint net
  return ⟨net.size, net.linkCount, net.diagnostics, fingerprint⟩

theorem idOf_of_lt
    {net : Network} {v : Nat}
    (hv : v < net.size) :
    idOf net v = .ok (net.idOf v) :=
  fetch_of_lt hv _

theorem mapM_idOf
    {net : Network} {nodes : List Nat}
    (hnodes : ∀ v ∈ nodes, v < net.size) :
    nodes.mapM (idOf net) = .ok (nodes.map net.idOf) :=
  mapM_eq_ok fun v hv => idOf_of_lt (hnodes v hv)

variable (s : Snapshot)

theorem network_eq : network s = .ok (Network.ofSnapshot s) := by
  have hnames : (Roster.ofIds (Network.sortedIds s)).graph.nodeCount =
      (Network.ofSnapshot s).size := by
    rw [PlainGraph.nodeCount, Roster.names_ofIds, List.size_toArray,
      Network.size_ofSnapshot]
  have hstep : ∀ g : PlainGraph, g.nodeCount = (Network.ofSnapshot s).size →
      ∀ entry ∈ (Network.ofSnapshot s).links.toList.zipIdx,
        addEdge g entry.1.low entry.1.high entry.2 =
          .ok (g.addEdge entry.1.low entry.1.high entry.2) ∧
        (g.addEdge entry.1.low entry.1.high entry.2).nodeCount =
          (Network.ofSnapshot s).size := by
    intro g hg entry hentry
    have hl := List.fst_mem_of_mem_zipIdx hentry
    rcases Network.link_ofSnapshot s (Array.mem_toList_iff.mp hl)
      with ⟨hlt, hhigh, -⟩
    have hends : entry.1.low < g.nodeCount ∧ entry.1.high < g.nodeCount := by
      omega
    rw [addEdge, require_of hends]
    exact ⟨rfl, hg⟩
  have hgraph := (foldlM_eq_ok hstep _ hnames).1
  have hadjacency : ofEnds (Network.sortedIds s).length
        ((Network.ofSnapshot s).links.toList.map Link.ends).toArray
        (List.range (Network.ofSnapshot s).links.toList.length) =
      .ok (Network.ofSnapshot s).adjacency := by
    have hends : ((Network.ofSnapshot s).links.toList.map Link.ends).toArray =
        (Network.ofSnapshot s).ends := by
      rw [Network.ends, ← Array.toList_map]
    rw [hends, ← Network.size_ofSnapshot, Array.length_toList,
      Network.adjacency_ofSnapshot]
    exact ofEnds_eq ((Network.simpleEnds_ofSnapshot s).inRange
      (Network.activeLinks_range (Network.ofSnapshot s)))
  have hunfold : network s = (do
      let graph ← (Network.ofSnapshot s).links.toList.zipIdx.foldlM
        (fun g entry => addEdge g entry.1.low entry.1.high entry.2)
        (Roster.ofIds (Network.sortedIds s)).graph
      let adjacency ← ofEnds (Network.sortedIds s).length
        ((Network.ofSnapshot s).links.toList.map Link.ends).toArray
        (List.range (Network.ofSnapshot s).links.toList.length)
      return {
        graph := graph
        numbers := (Network.ofSnapshot s).numbers
        links := (Network.ofSnapshot s).links
        adjacency := adjacency
        diagnostics := (Network.ofSnapshot s).diagnostics }) := rfl
  rw [hunfold, hgraph, ok_bind, hadjacency]
  rfl

theorem fingerprint_eq :
    fingerprint (Network.ofSnapshot s) =
      .ok (Network.ofSnapshot s).fingerprint := by
  have hends : ∀ l ∈ (Network.ofSnapshot s).links.toList, (do
      let low ← idOf (Network.ofSnapshot s) l.low
      let high ← idOf (Network.ofSnapshot s) l.high
      return Network.idBytes low ++ Network.idBytes high) =
        .ok (Network.idBytes ((Network.ofSnapshot s).idOf l.low) ++
          Network.idBytes ((Network.ofSnapshot s).idOf l.high)) := by
    intro l hl
    rcases Network.link_ofSnapshot s (Array.mem_toList_iff.mp hl)
      with ⟨hlt, hhigh, -⟩
    rw [idOf_of_lt (hlt.trans hhigh), ok_bind, idOf_of_lt hhigh]
    rfl
  rw [fingerprint, mapM_eq_ok hends, Network.fingerprint, Network.content,
    List.flatMap_def]
  rfl

theorem basis_eq :
    basis (Network.ofSnapshot s) = .ok (Network.ofSnapshot s).basis := by
  rw [basis, fingerprint_eq]
  rfl

end Strict

end LinkAnalysis
