import LinkAnalysis.Cancellation
import LinkAnalysis.Network.Geodesics
import LinkAnalysis.Score

/-!
# Betweenness

The betweenness of a node, or of a link, is the sum over all ordered pairs of
other nodes of the share of shortest walks between them that pass through it.
It is accumulated source by source: a breadth-first search counts the shortest
walks, and a walk back over the discovered nodes hands each node's dependency on
to its predecessors.
-/

namespace LinkAnalysis

structure Betweenness (α : Type) where
  node : Array α
  link : Array α
  deriving DecidableEq, Repr

/-- The scores accumulated so far, and the dependencies of the nodes on the
present source.  The dependencies are reset only where the present source
reaches. -/
structure Tally (α : Type) where
  node : Array α
  link : Array α
  dependency : Array α

namespace Tally

variable {α : Type} [Score α]

def blank (n m : Nat) : Tally α :=
  ⟨Array.replicate n Score.zero, Array.replicate m Score.zero,
    Array.replicate n Score.zero⟩

@[inline] def dependencyOf (t : Tally α) (v : Nat) : α :=
  t.dependency.getD v Score.zero

/-- Hand the share of one predecessor of `w` on to it, and credit the link in
between. -/
@[specialize] def handOn (g : Geodesics α) (w : Nat) (t : Tally α)
    (step : Nat × Nat) : Tally α :=
  let total := g.countOf w
  if Score.zero < total then
    let share := g.countOf step.1 / total * (Score.one + t.dependencyOf w)
    { t with
      link := t.link.modify step.2 (· + share)
      dependency := t.dependency.modify step.1 (· + share) }
  else t

/-- Hand the dependency of a node on to its predecessors, and credit the node
itself unless it is the source. -/
@[specialize] def settle (g : Geodesics α) (w : Nat) (t : Tally α) : Tally α :=
  let t := (g.predecessorsOf w).foldl (handOn g w) t
  if w = g.source then t
  else
    let own := t.dependencyOf w
    { t with node := t.node.modify w (· + own) }

@[specialize] def reset (g : Geodesics α) (t : Tally α) : Tally α :=
  { t with
    dependency :=
      g.order.foldl (fun d v => d.setIfInBounds v Score.zero) t.dependency }

/-- Add the shares of all walks from one source: from the farthest node back to
the source. -/
@[specialize] def addSource (adj : Adjacency) (t : Tally α)
    (source : Nat) : Tally α :=
  let g : Geodesics α := Geodesics.ofSource adj source
  g.order.foldr (settle g) (t.reset g)

end Tally

variable {α : Type} [Score α]

/-- The scores of all nodes and of `m` links, summed over ordered pairs.  The
token is polled before every source. -/
@[specialize] def accumulate (signal : Signal) (adj : Adjacency) (m : Nat) :
    Except Fault (Betweenness α) := do
  let t ← adj.nodes.foldlM (fun t source => do
    signal.check
    return t.addSource adj source) (Tally.blank adj.size m)
  return ⟨t.node, t.link⟩

/-- Node scores as shares of all unordered pairs of other nodes; all of them
zero where there is no such pair. -/
@[specialize] def normalize (scores : Array α) : Array α :=
  let n := scores.size
  if n ≤ 2 then scores.map fun _ => Score.zero
  else
    let pairs : α := Score.halfProduct (n - 1) (n - 2)
    scores.map fun s => Score.clampUnit (s / Score.count 2 / pairs)

@[specialize] def betweenness (signal : Signal) (adj : Adjacency) (m : Nat) :
    Except Fault (Betweenness α) := do
  let b ← accumulate signal adj m
  return { b with node := normalize b.node }

end LinkAnalysis
