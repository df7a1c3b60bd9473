import LinkAnalysis.Score
import LinkAnalysis.Fault

/-!
# Configuration

The budgets, thresholds and weights of the analyses.  Every value has a default;
a configuration is accepted only if each value makes sense to the analysis that
uses it.
-/

namespace LinkAnalysis

structure CommunityConfig where
  minSize : Nat
  maxCommunities : Nat
  maxTarget : Nat
  nodesPerCommunity : Nat
  maxIterations : Nat
  deriving DecidableEq, Repr

structure PathConfig where
  maxDepth : Nat
  maxPaths : Nat
  maxExpansions : Nat
  deriving DecidableEq, Repr

structure Weights (α : Type) where
  degree : α
  closeness : α
  betweenness : α
  deriving DecidableEq, Repr

structure Config (α : Type) where
  community : CommunityConfig
  brokerThreshold : α
  paths : PathConfig
  weights : Weights α
  deriving DecidableEq, Repr

/-- Ten communities of two or more nodes; up to six components, one for four
nodes; twenty cuts. -/
def CommunityConfig.default : CommunityConfig := ⟨2, 10, 6, 4, 20⟩

def PathConfig.default : PathConfig := ⟨5, 1000, 200000⟩

def tenths {α : Type} [Score α] (n : Nat) : α := Score.count n / Score.count 10

def Weights.default {α : Type} [Score α] : Weights α :=
  ⟨tenths 4, tenths 3, tenths 3⟩

def Config.default {α : Type} [Score α] : Config α :=
  ⟨CommunityConfig.default, tenths 3, PathConfig.default, Weights.default⟩

inductive ConfigFlaw where
  | minSize
  | maxCommunities
  | target
  | threshold
  | maxDepth
  | budgets
  | weights
  deriving DecidableEq, Repr

def ConfigFlaw.text : ConfigFlaw → String
  | minSize => "community.min_size must be at least 1"
  | maxCommunities => "community.max_communities must be at least 1"
  | target =>
    "community.max_target and community.nodes_per_community must be positive"
  | threshold => "brokers.threshold must lie in [0, 1]"
  | maxDepth => "paths.max_depth must be at least 1"
  | budgets => "paths.max_paths and paths.max_expansions must be positive"
  | weights => "centrality weights must be finite and non-negative"

namespace Config

variable {α : Type} [Score α]

def isWeight (w : α) : Bool := Score.isFinite w && !decide (w < Score.zero)

def flaw? (c : Config α) : Option ConfigFlaw :=
  if c.community.minSize = 0 then some .minSize
  else if c.community.maxCommunities = 0 then some .maxCommunities
  else if c.community.maxTarget = 0 ∨ c.community.nodesPerCommunity = 0 then
    some .target
  else if !(Score.isFinite c.brokerThreshold
      && decide (Score.zero ≤ c.brokerThreshold)
      && decide (c.brokerThreshold ≤ Score.one)) then
    some .threshold
  else if c.paths.maxDepth = 0 then some .maxDepth
  else if c.paths.maxPaths = 0 ∨ c.paths.maxExpansions = 0 then some .budgets
  else if !(isWeight c.weights.degree && isWeight c.weights.closeness
      && isWeight c.weights.betweenness) then some .weights
  else none

def validate (c : Config α) : Except Fault Unit :=
  match c.flaw? with
  | some flaw => .error (.invalidConfig flaw.text)
  | none => .ok ()

end Config

end LinkAnalysis
