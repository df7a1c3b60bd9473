import LinkAnalysis.Cancellation
import LinkAnalysis.Config.Basic
import LinkAnalysis.Network.Geodesics

/-!
# Composite centrality

Degree and closeness are scaled so that the most central node has one.  The
composite score of a node is the weighted sum of both and of its betweenness,
each taken into the unit interval.
-/

namespace LinkAnalysis

variable {α : Type} [Score α]

structure Centrality (α : Type) where
  degree : Array Nat
  degreeNormalized : Array α
  closeness : Array α
  betweenness : Array α
  composite : Array α
  deriving DecidableEq, Repr

/-- How many nodes a search reached beyond its source, and the sum of their
distances. -/
def Geodesics.reachAndTotal (g : Geodesics α) : Nat × Nat :=
  g.order.foldl (fun (reach, total) w =>
    match g.distanceTo w with
    | some (d + 1) => (reach + 1, total + (d + 1))
    | _ => (reach, total)) (0, 0)

/-- The reciprocal of the mean distance to the nodes that `v` reaches; zero
where it reaches none. -/
def rawCloseness (adj : Adjacency) (v : Nat) : α :=
  let g : Geodesics α := Geodesics.ofSource adj v
  let (reach, total) := g.reachAndTotal
  if total = 0 then Score.zero else Score.count reach / Score.count total

def scaleByMax (values : Array α) : Array α :=
  let most := values.foldl Score.larger Score.zero
  if most ≤ Score.zero then values
  else if Score.isFinite most then values.map (· / most)
  else values

def closeness (signal : Signal) (adj : Adjacency) : Except Fault (Array α) := do
  let raw ← adj.nodes.mapM fun v => do
    signal.check
    return rawCloseness adj v
  return scaleByMax raw.toArray

def unitValue (x : α) : α :=
  if Score.isFinite x then Score.clampUnit x else Score.zero

def weigh (w : Weights α) (degree closeness betweenness : α) : α :=
  w.degree * unitValue degree + w.closeness * unitValue closeness
    + w.betweenness * unitValue betweenness

def normalizeDegrees (degrees : Array Nat) : Array α :=
  let most := degrees.foldl max 0
  degrees.map fun d =>
    if most = 0 then Score.zero else Score.count d / Score.count most

/-- Composite centrality, with betweenness scores of any origin; missing ones
count as zero. -/
def centrality (signal : Signal) (adj : Adjacency) (betweenness : Array α)
    (w : Weights α) : Except Fault (Centrality α) := do
  let degree := (adj.nodes.map adj.degree).toArray
  let degreeNormalized : Array α := normalizeDegrees degree
  let close ← closeness signal adj
  let composite := adj.nodes.map fun v =>
    weigh w (degreeNormalized.getD v Score.zero) (close.getD v Score.zero)
      (betweenness.getD v Score.zero)
  return ⟨degree, degreeNormalized, close, betweenness, composite.toArray⟩

end LinkAnalysis
