import LinkAnalysis.Network.Geodesics

/-!
# Shortest routes

A route is the list of its nodes.  Routes are compared node by node, or first by
their length.

The shortest routes from the source of a search are found by walking back from
the target along the predecessors, smaller ones first, until so many routes are
found.
-/

namespace LinkAnalysis

def routeLe : List Nat → List Nat → Bool
  | [], _ => true
  | _ :: _, [] => false
  | a :: x, b :: y => decide (a < b) || (a == b && routeLe x y)

def shorterLe (x y : List Nat) : Bool :=
  decide (x.length < y.length) || (x.length == y.length && routeLe x y)

structure RouteHaul where
  count : Nat
  routes : List (List Nat)
  truncated : Bool
  deriving DecidableEq, Repr

def RouteHaul.add (limit : Nat) (haul : RouteHaul)
    (route : List Nat) : RouteHaul :=
  if haul.count = limit then { haul with truncated := true }
  else { haul with count := haul.count + 1, routes := route :: haul.routes }

namespace Geodesics

variable {α : Type}

def sortedPredecessors (g : Geodesics α) (v : Nat) : List Nat :=
  ((g.predecessorsOf v).map Prod.fst).mergeSort fun a b => decide (a ≤ b)

/-- Complete the route that goes on from `head` through the nodes `behind`, in
all ways back to the source, which is at most so many links away. -/
def trace (g : Geodesics α) (limit : Nat) :
    Nat → Nat → List Nat → RouteHaul → RouteHaul
  | away, head, behind, haul =>
    if haul.truncated then haul
    else if head = g.source then haul.add limit (head :: behind)
    else match away with
      | 0 => haul
      | nearer + 1 =>
        (g.sortedPredecessors head).foldl
          (fun haul u => g.trace limit nearer u (head :: behind) haul) haul

/-- Up to `limit` shortest routes to a node, in the order of their nodes, and
whether there are more. -/
def routesTo (g : Geodesics α) (target limit : Nat) : List (List Nat) × Bool :=
  match g.distanceTo target with
  | none => ([], false)
  | some distance =>
    if limit = 0 then ([], true)
    else
      let haul := g.trace limit distance target [] ⟨0, [], false⟩
      (haul.routes.reverse.mergeSort routeLe, haul.truncated)

def routesTo? (g : Geodesics α) (target limit : Nat) :
    Option (List (List Nat) × Bool) :=
  if target < g.distances.size then some (g.routesTo target limit) else none

end Geodesics

end LinkAnalysis
