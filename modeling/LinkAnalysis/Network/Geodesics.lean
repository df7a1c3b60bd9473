import LinkAnalysis.Network.Adjacency

/-!
# Geodesics

A breadth-first search from one node finds the distance of every node, the order
of discovery, and for every node the predecessors through which shortest walks
reach it.  With each predecessor its number of shortest walks is added to the
node's own, in any arithmetic: exactly, or in machine numbers.
-/

namespace LinkAnalysis

/-- What a breadth-first search from one node knows. -/
structure Geodesics (α : Type) where
  source : Nat
  distances : Array (Option Nat)
  counts : Array α
  /-- For every node, the last step of each shortest walk to it: the node before
  and the link. -/
  predecessors : Array (List (Nat × Nat))
  order : Array Nat
  deriving DecidableEq, Repr

namespace Geodesics

variable {α : Type} [NatCast α] [Add α]

def start (n source : Nat) : Geodesics α :=
  { source := source
    distances := (Array.replicate n none).setIfInBounds source (some 0)
    counts :=
      (Array.replicate n ((0 : Nat) : α)).setIfInBounds source ((1 : Nat) : α)
    predecessors := Array.replicate n []
    order := #[source] }

def distanceTo (g : Geodesics α) (v : Nat) : Option Nat :=
  g.distances.getD v none

@[inline] def countOf (g : Geodesics α) (v : Nat) : α :=
  g.counts.getD v ((0 : Nat) : α)

def predecessorsOf (g : Geodesics α) (v : Nat) : List (Nat × Nat) :=
  g.predecessors.getD v []

/-- Discover a node at this distance, unless it was reached before. -/
def discover (distance w : Nat) (g : Geodesics α) : Geodesics α :=
  if (g.distanceTo w).isNone then
    { g with
      distances := g.distances.setIfInBounds w (some distance)
      order := g.order.push w }
  else g

/-- Follow one link from `v`: what it reaches at the next distance has `v` as a
predecessor. -/
@[specialize] def follow (v distance : Nat) (g : Geodesics α)
    (step : Nat × Nat) : Geodesics α :=
  let g := g.discover distance step.1
  if g.distanceTo step.1 = some distance then
    let count := g.countOf v
    { g with
      counts := g.counts.modify step.1 (· + count)
      predecessors := g.predecessors.modify step.1 (· ++ [(v, step.2)]) }
  else g

@[specialize] def visit (adj : Adjacency) (v : Nat)
    (g : Geodesics α) : Geodesics α :=
  (adj.neighbors v).foldl (follow v ((g.distanceTo v).elim 0 (· + 1))) g

/-- Visit the nodes in the order of discovery, from position `head` on, so many
at most. -/
@[specialize] def explore (adj : Adjacency) :
    Nat → Nat → Geodesics α → Geodesics α
  | 0, _, g => g
  | visits + 1, head, g =>
    match g.order[head]? with
    | none => g
    | some v => explore adj visits (head + 1) (g.visit adj v)

/-- The geodesics from a node.  Every node is visited at most once, so there are
no more visits than nodes. -/
@[specialize] def ofSource (adj : Adjacency) (source : Nat) : Geodesics α :=
  explore adj adj.size 0 (start adj.size source)

end Geodesics

structure SourceOutOfRange where
  source : Nat
  size : Nat
  deriving DecidableEq, Repr

def SourceOutOfRange.text (e : SourceOutOfRange) : String :=
  "source " ++ toString e.source ++ " out of range for " ++
    toString e.size ++ " nodes"

def Geodesics.ofSource? {α : Type} [NatCast α] [Add α] (adj : Adjacency)
    (source : Nat) : Except SourceOutOfRange (Geodesics α) :=
  if source < adj.size then .ok (ofSource adj source)
  else .error ⟨source, adj.size⟩

end LinkAnalysis
