import LinkAnalysis.Digest.Blake3
import LinkAnalysis.Network.Adjacency
import LinkAnalysis.Snapshot.Basic

/-!
# Networks

The network of a snapshot is its canonical undirected graph.  Nodes are numbered
in the order of their ids.  Every unordered pair of distinct nodes that some
edge joins is one link; edges that name unknown nodes, edges from a node to
itself and repetitions are counted and otherwise ignored.  The same graph is
kept in three forms: as the list of links, as the adjacency of all links, and as
a plain graph for general algorithms.  The fingerprint of a network is a digest
of its content, by which stale results are told from fresh ones.
-/

namespace LinkAnalysis

structure Diagnostics where
  dropped : Nat
  duplicates : Nat
  selfLoops : Nat
  deriving DecidableEq, Repr

/-- A link between two nodes, the one with the smaller number first. -/
structure Link where
  low : Nat
  high : Nat
  key : String
  deriving DecidableEq, Repr

def Link.ends (l : Link) : Nat × Nat := (l.low, l.high)

def linkKey (a b : String) : String :=
  if a ≤ b then a ++ "|" ++ b else b ++ "|" ++ a

def Link.le (x y : Link) : Bool :=
  decide (x.key < y.key) || (x.key == y.key &&
    (decide (x.low < y.low) || (x.low == y.low && decide (x.high ≤ y.high))))

/-- An undirected graph as general algorithms take it. -/
structure PlainGraph where
  names : Array String
  edges : Array (Nat × Nat × Nat)
  deriving DecidableEq, Repr

namespace PlainGraph

def empty : PlainGraph := ⟨#[], #[]⟩

def nodeCount (g : PlainGraph) : Nat := g.names.size

def addNode (g : PlainGraph) (name : String) : Nat × PlainGraph :=
  (g.nodeCount, { g with names := g.names.push name })

def addEdge (g : PlainGraph) (a b label : Nat) : PlainGraph :=
  { g with edges := g.edges.push (a, b, label) }

end PlainGraph

structure Roster where
  graph : PlainGraph
  numbers : List (String × Nat)

def Roster.enter (r : Roster) (id : String) : Roster :=
  let (v, graph) := r.graph.addNode id
  ⟨graph, (id, v) :: r.numbers⟩

def Roster.ofIds (ids : List String) : Roster :=
  ids.foldl Roster.enter ⟨PlainGraph.empty, []⟩

/-- The links so far, latest first, and what became of the other edges. -/
structure Intake where
  links : List Link
  diagnostics : Diagnostics

def Intake.take (numbers : List (String × Nat)) (s : Intake)
    (e : Edge) : Intake :=
  let d := s.diagnostics
  match numbers.lookup e.source, numbers.lookup e.target with
  | some a, some b =>
    if a = b then
      { s with diagnostics := { d with selfLoops := d.selfLoops + 1 } }
    else
      let low := min a b
      let high := max a b
      if s.links.any (fun l => l.low == low && l.high == high) then
        { s with diagnostics := { d with duplicates := d.duplicates + 1 } }
      else { s with links := ⟨low, high, linkKey e.source e.target⟩ :: s.links }
  | _, _ => { s with diagnostics := { d with dropped := d.dropped + 1 } }

/-- The canonical undirected graph of a snapshot. -/
structure Network where
  /-- The graph for general algorithms: nodes are named by their ids, edges
  labelled with the positions of their links. -/
  graph : PlainGraph
  numbers : List (String × Nat)
  links : Array Link
  adjacency : Adjacency
  diagnostics : Diagnostics
  deriving DecidableEq, Repr

namespace Network

def sortedIds (s : Snapshot) : List String :=
  (s.nodes.map Node.id).mergeSort fun a b => decide (a ≤ b)

def ofSnapshot (s : Snapshot) : Network :=
  let ids := sortedIds s
  let roster := Roster.ofIds ids
  let intake := s.edges.foldl (Intake.take roster.numbers) ⟨[], ⟨0, 0, 0⟩⟩
  let links := intake.links.reverse.mergeSort Link.le
  { graph := links.zipIdx.foldl (fun g (l, position) =>
      g.addEdge l.low l.high position) roster.graph
    numbers := roster.numbers
    links := links.toArray
    adjacency := Adjacency.ofEnds ids.length (links.map Link.ends).toArray
      (List.range links.length)
    diagnostics := intake.diagnostics }

def ids (net : Network) : Array String := net.graph.names

def size (net : Network) : Nat := net.graph.nodeCount

def linkCount (net : Network) : Nat := net.links.size

def indexOf? (net : Network) (id : String) : Option Nat := net.numbers.lookup id

def idOf (net : Network) (v : Nat) : String := net.ids.getD v ""

def keyOf (net : Network) (position : Nat) : String :=
  (net.links[position]?).elim "" Link.key

def ends (net : Network) : Array (Nat × Nat) := net.links.map Link.ends

def adjacencyOf (net : Network) (active : List Nat) : Adjacency :=
  Adjacency.ofEnds net.size net.ends active

def idBytes (id : String) : List UInt8 :=
  id.toList.flatMap String.utf8EncodeChar ++ [0]

/-- The content of a network: its ids, a mark, and the ids at both ends of each
link. -/
def content (net : Network) : List UInt8 :=
  net.ids.toList.flatMap idBytes ++ 1 :: net.links.toList.flatMap fun l =>
    idBytes (net.idOf l.low) ++ idBytes (net.idOf l.high)

def fingerprint (net : Network) : String :=
  "blake3:" ++ Digest.Blake3.hex net.content

end Network

end LinkAnalysis
