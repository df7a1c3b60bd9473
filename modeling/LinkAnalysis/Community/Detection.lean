import LinkAnalysis.Centrality.Betweenness
import LinkAnalysis.Config.Basic
import LinkAnalysis.Network.Basic
import LinkAnalysis.Network.Components

/-!
# Community detection

Communities are found by division: the link with the highest betweenness is
removed, again and again, until the network falls into as many components as are
aimed at, nothing worth removing is left, or the budget is spent.  Links whose
betweenness differs by rounding noise count as tied, and of tied links the one
with the smallest key is removed.
-/

namespace LinkAnalysis

inductive StopReason where
  | targetReached
  | noStructure
  | iterationCap
  deriving DecidableEq, Repr

namespace StopReason

def condition : StopReason → String
  | targetReached => "A"
  | noStructure => "B"
  | iterationCap => "C"

def name : StopReason → String
  | targetReached => "target_reached"
  | noStructure => "no_structure"
  | iterationCap => "iteration_cap"

def isApproximation : StopReason → Bool
  | iterationCap => true
  | _ => false

def all : List StopReason := [targetReached, noStructure, iterationCap]

end StopReason

structure Partition where
  communities : List (List Nat)
  stopReason : StopReason
  removed : List Nat
  componentCount : Nat
  target : Nat
  deriving DecidableEq, Repr

def Partition.iterations (p : Partition) : Nat := p.removed.length

/-- The number of components aimed at: one for so many nodes, rounded up, within
a limit. -/
def targetCommunities (n : Nat) (config : CommunityConfig) : Nat :=
  let share := max config.nodesPerCommunity 1
  min config.maxTarget ((n + share - 1) / share)

section Selection

variable {α : Type} [Score α]

def tieWidth : α := Score.count 1 / Score.count (tenTo 9)

def largestScore (scores : Array α) (remaining : List Nat) : α :=
  remaining.foldl (fun most e =>
    Score.larger most (scores.getD e Score.zero)) Score.zero

/-- The first of the remaining links whose score is tied with the largest one,
if that is positive and finite.  Links are in the order of their keys. -/
def selectLink? (remaining : List Nat) (scores : Array α) : Option Nat :=
  let most := largestScore scores remaining
  if Score.isFinite most && !decide (most ≤ Score.zero) then
    let floor := most - tieWidth * Score.larger most Score.one
    remaining.find? fun e => decide (floor ≤ scores.getD e Score.zero)
  else none

end Selection

/-- A run under way. -/
structure Division where
  remaining : List Nat
  /-- The positions of the removed links, latest first. -/
  removed : List Nat
  best : List (List Nat)
  deriving DecidableEq, Repr

def Division.start (m : Nat) : Division := ⟨List.range m, [], []⟩

def Division.cut (d : Division) (e : Nat) : Division :=
  { d with remaining := d.remaining.filter (· != e), removed := e :: d.removed }

/-- Remember components if they are more than those remembered. -/
def Division.remember (d : Division) (groups : List (List Nat)) : Division :=
  if d.best.length < groups.length then { d with best := groups } else d

/-- Remove links until a stop condition holds, at most so many more.  The token
is polled before every look at the components and before every source of the
betweenness scores. -/
def Division.run (α : Type) [Score α] (signal : Signal) (net : Network)
    (target budget : Nat) (d : Division) :
    Except Fault (Division × StopReason) := do
  signal.check
  let adj := net.adjacencyOf d.remaining
  let groups := components adj
  if target ≤ groups.length then
    return ({ d with best := groups }, .targetReached)
  let d := d.remember groups
  if d.remaining.isEmpty then return (d, .noStructure)
  match budget with
  | 0 => return (d, .iterationCap)
  | more + 1 =>
    let scores : Betweenness α ← accumulate signal adj net.linkCount
    match selectLink? d.remaining scores.link with
    | none => return (d, .noStructure)
    | some e => Division.run α signal net target more (d.cut e)

def reported (config : CommunityConfig)
    (groups : List (List Nat)) : List (List Nat) :=
  (sortGroups (groups.filter fun g => decide (config.minSize ≤ g.length))).take
    config.maxCommunities

def detectCommunities (α : Type) [Score α] (signal : Signal) (net : Network)
    (config : CommunityConfig) : Except Fault Partition := do
  let target := targetCommunities net.size config
  let budget := min net.linkCount config.maxIterations
  let (d, stopReason) ← Division.run α signal net target budget
      (Division.start net.linkCount)
  return {
    communities := reported config d.best
    stopReason := stopReason
    removed := d.removed.reverse
    componentCount := d.best.length
    target := target }

end LinkAnalysis
