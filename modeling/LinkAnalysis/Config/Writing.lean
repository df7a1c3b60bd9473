import LinkAnalysis.Config.Basic
import LinkAnalysis.Config.Setting
import LinkAnalysis.Json.Value
import LinkAnalysis.Toml.Document

/-!
# Configurations in writing

A configuration document is a table of four sections, each with its fields;
whatever is left out keeps its default and unknown fields are skipped.  A
section, and the whole, may also be a list of its values in the order of
declaration.  Notations differ in whether such a list may hold more values than
there are fields.

A configuration file is TOML in UTF-8.  It is loaded if it can be read, says a
configuration, and that configuration is valid.

The document that is written names every value, defaults included.
-/

namespace LinkAnalysis

open Json (Value)
open Setting (count? score? field)

def Setting.readSection {β : Type} (exact : Bool) (size : Nat)
    (read : Setting → Option β) (s : Setting) : Option β :=
  if exact && !s.fitsSection size then none else read s

def CommunityConfig.ofSetting? (exact : Bool) :
    Setting → Option CommunityConfig :=
  Setting.readSection exact 5 fun s => do
    let d := CommunityConfig.default
    let minSize ← field count? "min_size" 0 d.minSize s
    let maxCommunities ← field count? "max_communities" 1 d.maxCommunities s
    let maxTarget ← field count? "max_target" 2 d.maxTarget s
    let nodesPerCommunity ←
      field count? "nodes_per_community" 3 d.nodesPerCommunity s
    let maxIterations ← field count? "max_iterations" 4 d.maxIterations s
    return ⟨minSize, maxCommunities, maxTarget, nodesPerCommunity,
      maxIterations⟩

def brokerThresholdOfSetting? (exact : Bool) : Setting → Option Float :=
  Setting.readSection exact 1 fun s => field score? "threshold" 0 (tenths 3) s

def PathConfig.ofSetting? (exact : Bool) : Setting → Option PathConfig :=
  Setting.readSection exact 3 fun s => do
    let d := PathConfig.default
    let maxDepth ← field count? "max_depth" 0 d.maxDepth s
    let maxPaths ← field count? "max_paths" 1 d.maxPaths s
    let maxExpansions ← field count? "max_expansions" 2 d.maxExpansions s
    return ⟨maxDepth, maxPaths, maxExpansions⟩

def Weights.ofSetting? (exact : Bool) : Setting → Option (Weights Float) :=
  Setting.readSection exact 3 fun s => do
    let d : Weights Float := Weights.default
    let degree ← field score? "degree" 0 d.degree s
    let closeness ← field score? "closeness" 1 d.closeness s
    let betweenness ← field score? "betweenness" 2 d.betweenness s
    return ⟨degree, closeness, betweenness⟩

def Config.ofSetting? (exact : Bool) : Setting → Option (Config Float) :=
  Setting.readSection exact 4 fun s => do
    let d : Config Float := Config.default
    let community ←
      field (CommunityConfig.ofSetting? exact) "community" 0 d.community s
    let threshold ←
      field (brokerThresholdOfSetting? exact) "brokers" 1 d.brokerThreshold s
    let paths ← field (PathConfig.ofSetting? exact) "paths" 2 d.paths s
    let weights ← field (Weights.ofSetting? exact) "centrality" 3 d.weights s
    return ⟨community, threshold, paths, weights⟩

inductive ConfigFailure where
  | unreadable
  | unparsable
  | refused (fault : Fault)
  deriving DecidableEq, Repr

namespace Config

def ofToml? (text : String) : Option (Config Float) :=
  (Toml.ofText? text).bind (Config.ofSetting? false)

def loadText (text : String) : Except ConfigFailure (Config Float) :=
  match ofToml? text with
  | none => .error .unparsable
  | some c =>
    match c.validate with
    | .ok () => .ok c
    | .error fault => .error (.refused fault)

def load (bytes : Option ByteArray) : Except ConfigFailure (Config Float) :=
  match bytes.bind String.fromUTF8? with
  | none => .error .unreadable
  | some text => loadText text

end Config

def CommunityConfig.toValue (c : CommunityConfig) : Value :=
  .record [("min_size", .count c.minSize),
    ("max_communities", .count c.maxCommunities),
    ("max_target", .count c.maxTarget),
    ("nodes_per_community", .count c.nodesPerCommunity),
    ("max_iterations", .count c.maxIterations)]

def PathConfig.toValue (c : PathConfig) : Value :=
  .record [("max_depth", .count c.maxDepth), ("max_paths", .count c.maxPaths),
    ("max_expansions", .count c.maxExpansions)]

def Weights.toValue (w : Weights Float) : Value :=
  .record [("degree", .score w.degree), ("closeness", .score w.closeness),
    ("betweenness", .score w.betweenness)]

def Config.toValue (c : Config Float) : Value :=
  .record [("community", c.community.toValue),
    ("brokers", .record [("threshold", .score c.brokerThreshold)]),
    ("paths", c.paths.toValue), ("centrality", c.weights.toValue)]

end LinkAnalysis
