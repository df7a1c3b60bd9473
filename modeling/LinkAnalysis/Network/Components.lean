import LinkAnalysis.Network.Basic

/-!
# Connected components

A partition of the numbers below a bound consists of sets that are joined one by
one.  Algorithms that need such a partition are written against its three
operations, so that none of them depends on how a partition is stored.  The
partition used here stores a label for every number.

Two nodes belong to one component if a walk joins them.  The components are
found by joining the sets of both ends of every link; they are listed by their
smallest members, and the members of each in ascending order.
-/

namespace LinkAnalysis

/-- The operations on partitions that are stored as values of type `σ`. -/
structure UnionFind (σ : Type) where
  singletons : Nat → σ
  union : σ → Nat → Nat → σ
  /-- The representative of a number's set.  The partition may be stored
  differently afterwards. -/
  find : σ → Nat → Nat × σ

/-- A partition that is stored as the label of every number's set. -/
structure Labels where
  labels : Array Nat
  deriving DecidableEq, Repr

namespace Labels

def singletons (n : Nat) : Labels := ⟨Array.range n⟩

def labelOf (p : Labels) (v : Nat) : Nat := p.labels.getD v v

def union (p : Labels) (v w : Nat) : Labels :=
  let a := p.labelOf v
  let b := p.labelOf w
  if a = b then p else ⟨p.labels.map fun c => if c = b then a else c⟩

def unionFind : UnionFind Labels :=
  ⟨singletons, union, fun p v => (p.labelOf v, p)⟩

end Labels

section Gathering

variable {σ : Type} (uf : UnionFind σ)

def joinNeighbors (adj : Adjacency) (sets : σ) (v : Nat) : σ :=
  (adj.neighbors v).foldl
    (fun sets step => if v < step.1 then uf.union sets v step.1 else sets) sets

def joinAll (adj : Adjacency) : σ :=
  adj.nodes.foldl (joinNeighbors uf adj) (uf.singletons adj.size)

/-- The groups met so far. -/
structure Gathering (σ : Type) where
  sets : σ
  slots : Array (Option Nat)
  groups : Array (Array Nat)

def Gathering.start (sets : σ) (n : Nat) : Gathering σ :=
  ⟨sets, Array.replicate n none, #[]⟩

/-- Add a node to the group of its representative, which is opened if it was not
met before. -/
def Gathering.add (c : Gathering σ) (v : Nat) : Gathering σ :=
  let (root, sets) := uf.find c.sets v
  match c.slots.getD root none with
  | some slot =>
    { c with sets := sets, groups := c.groups.modify slot (·.push v) }
  | none =>
    { sets := sets
      slots := c.slots.setIfInBounds root (some c.groups.size)
      groups := c.groups.push #[v] }

/-- The connected components, by smallest member, found with these operations on
partitions. -/
def componentsBy (adj : Adjacency) : List (List Nat) :=
  (adj.nodes.foldl (Gathering.add uf)
    (Gathering.start (joinAll uf adj) adj.size)).groups.toList.map Array.toList

/-- The number of connected components of a plain graph: how many
representatives remain after the ends of all edges have been joined. -/
def PlainGraph.componentCountBy (g : PlainGraph) : Nat :=
  let sets := g.edges.foldl (fun sets e => uf.union sets e.1 e.2.1)
    (uf.singletons g.nodeCount)
  ((List.range g.nodeCount).map fun v => (uf.find sets v).1).eraseDups.length

end Gathering

def components (adj : Adjacency) : List (List Nat) :=
  componentsBy Labels.unionFind adj

def PlainGraph.componentCount (g : PlainGraph) : Nat :=
  g.componentCountBy Labels.unionFind

def groupLe (x y : List Nat) : Bool :=
  decide (y.length < x.length) ||
    (x.length == y.length && match x.head?, y.head? with
      | some a, some b => decide (a ≤ b)
      | some _, none => false
      | none, _ => true)

def sortGroups (groups : List (List Nat)) : List (List Nat) :=
  groups.mergeSort groupLe

end LinkAnalysis
