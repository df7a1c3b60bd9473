import LinkAnalysis.Network.Basic
import LinkAnalysis.Network.Components
import LinkAnalysis.Score

/-!
# Statistics of networks and groups

A network is summarised by its size, its links, its components and its degrees.
A group of nodes is summarised by its links inside the whole network: how many
there are, how dense they make the group, and which member has most of them.
-/

namespace LinkAnalysis

variable {α : Type} [Score α]

/-- The share of the unordered pairs of `n` nodes that `m` links join; zero
where there is no pair. -/
def density (n m : Nat) : α :=
  if n < 2 then Score.zero else Score.count m / Score.halfProduct n (n - 1)

def averageDegree (n m : Nat) : α :=
  if n = 0 then Score.zero else Score.count (2 * m) / Score.count n

structure Statistics (α : Type) where
  nodeCount : Nat
  linkCount : Nat
  density : α
  averageDegree : α
  componentCount : Nat
  isolatedCount : Nat
  maxDegree : Nat
  deriving DecidableEq, Repr

def Network.statistics (net : Network) : Statistics α :=
  let adj := net.adjacency
  let degrees := adj.nodes.map adj.degree
  { nodeCount := net.size
    linkCount := net.linkCount
    density := LinkAnalysis.density net.size net.linkCount
    averageDegree := LinkAnalysis.averageDegree net.size net.linkCount
    componentCount := net.graph.componentCount
    isolatedCount := degrees.countP (· == 0)
    maxDegree := degrees.foldl max 0 }

structure GroupSummary (α : Type) where
  internalLinks : Nat
  density : α
  central : Option Nat
  deriving DecidableEq, Repr

def Network.linksWithin (net : Network) (members : List Nat) : List Link :=
  net.links.toList.filter fun l => members.contains l.low &&
    members.contains l.high

def degreeIn (links : List Link) (v : Nat) : Nat :=
  links.countP fun l => l.low == v || l.high == v

/-- Of two nodes the one with more of these links; of two with equally many the
smaller one. -/
def moreCentral (degree : Nat → Nat) (a b : Nat) : Nat :=
  if degree b > degree a then b else if degree b < degree a then a else min a b

def mostCentral (degree : Nat → Nat) : List Nat → Option Nat
  | [] => none
  | a :: more => some (more.foldl (moreCentral degree) a)

def Network.summary (net : Network) (members : List Nat) : GroupSummary α :=
  let within := net.linksWithin members
  { internalLinks := within.length
    density := density members.length within.length
    central := mostCentral (degreeIn within) members }

def Network.summary? (net : Network) (members : List Nat) :
    Option (GroupSummary α) :=
  if members.all fun v => decide (v < net.size) then some (net.summary members)
  else none

end LinkAnalysis
