/-!
# Adjacency

Nodes are numbered from zero.  The adjacency of a set of links lists, for every
node, its neighbours together with the position of the link that leads there, in
ascending order.  It can be built over any selection of the links; a link that
joins a node to itself is listed twice there.
-/

namespace LinkAnalysis

def neighborLe (x y : Nat × Nat) : Bool :=
  decide (x.1 < y.1) || (x.1 == y.1 && decide (x.2 ≤ y.2))

/-- For every node its neighbours, each with the position of the link that leads
there. -/
structure Adjacency where
  rows : Array (Array (Nat × Nat))
  deriving DecidableEq, Repr

namespace Adjacency

def size (adj : Adjacency) : Nat := adj.rows.size

def neighbors (adj : Adjacency) (v : Nat) : Array (Nat × Nat) :=
  adj.rows.getD v #[]

def degree (adj : Adjacency) (v : Nat) : Nat := (adj.neighbors v).size

def nodes (adj : Adjacency) : List Nat := List.range adj.size

def addEnds (ends : Array (Nat × Nat)) (rows : Array (List (Nat × Nat)))
    (position : Nat) : Array (List (Nat × Nat)) :=
  match ends[position]? with
  | some (a, b) =>
    (rows.modify a ((b, position) :: ·)).modify b ((a, position) :: ·)
  | none => rows

/-- The adjacency of the links at these positions, over so many nodes; a link is
given by its two ends. -/
def ofEnds (n : Nat) (ends : Array (Nat × Nat))
    (active : List Nat) : Adjacency :=
  ⟨(active.foldl (addEnds ends) (Array.replicate n [])).map
    fun row => (row.mergeSort neighborLe).toArray⟩

def inRange (n : Nat) (ends : Array (Nat × Nat)) (active : List Nat) : Bool :=
  active.all fun position =>
    match ends[position]? with
    | some (a, b) => decide (a < n) && decide (b < n)
    | none => false

/-- The adjacency of the links at these positions, if they are links between so
many nodes. -/
def ofEnds? (n : Nat) (ends : Array (Nat × Nat))
    (active : List Nat) : Option Adjacency :=
  if inRange n ends active then some (ofEnds n ends active) else none

end Adjacency

end LinkAnalysis
