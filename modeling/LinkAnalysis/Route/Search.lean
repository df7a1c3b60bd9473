import LinkAnalysis.Cancellation
import LinkAnalysis.Config.Basic
import LinkAnalysis.Network.Adjacency
import LinkAnalysis.Route.Shortest

/-!
# Simple routes

All routes without repeated nodes from one node to another, up to a length, are
found by going deeper while that is possible and back otherwise.  Every step
that is tried costs one expansion; the search ends early when the expansions or
the routes exceed their budgets.  Steps are tried in the order of neighbours, so
routes are found in the order of their nodes.
-/

namespace LinkAnalysis

/-- A node of the present route and how many of its neighbours have been
tried. -/
structure Frame where
  node : Nat
  cursor : Nat
  deriving DecidableEq, Repr

structure Search where
  /-- The nodes of the present route with their cursors, the last node first. -/
  frames : List Frame
  path : List Nat
  onPath : Array Bool
  expansions : Nat
  count : Nat
  /-- The routes found, latest first. -/
  found : List (List Nat)
  deriving DecidableEq, Repr

structure Enumeration where
  paths : List (List Nat)
  truncated : Bool
  expansions : Nat
  deriving DecidableEq, Repr

inductive Turn where
  | more (s : Search)
  | done (s : Search) (truncated : Bool)
  deriving DecidableEq, Repr

namespace Search

def pollInterval : Nat := 1024

def start (n source : Nat) : Search :=
  { frames := [⟨source, 0⟩]
    path := [source]
    onPath := (Array.replicate n false).setIfInBounds source true
    expansions := 0
    count := 0
    found := [] }

def retreat (s : Search) (node : Nat) : Search :=
  { s with
    frames := s.frames.tail
    path := s.path.tail
    onPath := s.onPath.setIfInBounds node false }

def advance (s : Search) (node : Nat) : Search :=
  { s with
    frames := ⟨node, 0⟩ :: s.frames
    path := node :: s.path
    onPath := s.onPath.setIfInBounds node true }

def spend (s : Search) (frame : Frame) (others : List Frame) : Search :=
  { s with
    frames := { frame with cursor := frame.cursor + 1 } :: others
    expansions := s.expansions + 1 }

def record (s : Search) (target : Nat) : Search :=
  { s with count := s.count + 1, found :=
    (target :: s.path).reverse :: s.found }

def enter (limits : PathConfig) (target next : Nat) (s : Search) : Turn :=
  if s.onPath.getD next false then .more s
  else if next = target then
    if s.count = limits.maxPaths then .done s true else .more (s.record target)
  else if s.path.length < limits.maxDepth then .more (s.advance next)
  else .more s

/-- One turn: try the next neighbour of the last node of the route, or go back
where all have been tried. -/
def turn (signal : Signal) (adj : Adjacency) (limits : PathConfig)
    (target : Nat) (s : Search) : Except Fault Turn :=
  match s.frames with
  | [] => .ok (.done s false)
  | frame :: others =>
    match (adj.neighbors frame.node)[frame.cursor]? with
    | none => .ok (.more (s.retreat frame.node))
    | some (next, _) =>
      if limits.maxExpansions ≤ s.expansions then .ok (.done s true)
      else
        let s := s.spend frame others
        if s.expansions % pollInterval = 0 then
          match signal.check with
          | .ok () => .ok (s.enter limits target next)
          | .error fault => .error fault
        else .ok (s.enter limits target next)

def run (signal : Signal) (adj : Adjacency) (limits : PathConfig)
    (target : Nat) : Nat → Search → Except Fault (Search × Bool)
  | 0, s => .ok (s, false)
  | turns + 1, s =>
    match s.turn signal adj limits target with
    | .error fault => .error fault
    | .ok (.done s truncated) => .ok (s, truncated)
    | .ok (.more s) => run signal adj limits target turns s

/-- The turns that a search can take: every turn but the last tries a step or
goes back from a node, and it goes back at most once for the start and once for
every step. -/
def turnLimit (limits : PathConfig) : Nat := 2 * limits.maxExpansions + 2

end Search

/-- The simple routes between two nodes, shorter ones first.  The token is
polled at the start.  A node has no route to itself. -/
def simplePaths (signal : Signal) (adj : Adjacency) (source target : Nat)
    (limits : PathConfig) : Except Fault Enumeration := do
  signal.check
  if source = target ∨ limits.maxDepth = 0 then return ⟨[], false, 0⟩
  let (s, truncated) ← Search.run signal adj limits target
      (Search.turnLimit limits) (Search.start adj.size source)
  return ⟨s.found.reverse.mergeSort shorterLe, truncated, s.expansions⟩

/-- The simple routes between two nodes, unless a search would have to start at
a node that does not exist. -/
def simplePaths? (signal : Signal) (adj : Adjacency) (source target : Nat)
    (limits : PathConfig) : Except Fault (Option Enumeration) := do
  signal.check
  if source ≠ target ∧ limits.maxDepth ≠ 0 ∧ adj.size ≤ source then return none
  let e ← simplePaths signal adj source target limits
  return some e

end LinkAnalysis
