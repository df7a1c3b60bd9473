/-!
# Faults

The ways in which an analysis can be refused.  Partial data and exhausted
budgets are no faults: they are reported beside the result.
-/

namespace LinkAnalysis

inductive Fault where
  | invalidSnapshot (detail : String)
  | emptyNodeId (index : Nat)
  | duplicateNode (id : String)
  | unknownNode (id : String)
  | invalidConfig (detail : String)
  | cancelled
  deriving DecidableEq, Repr

namespace Fault

def code : Fault → String
  | invalidSnapshot _ => "E1001"
  | emptyNodeId _ => "E1002"
  | duplicateNode _ => "E1003"
  | unknownNode _ => "E2001"
  | invalidConfig _ => "E3001"
  | cancelled => "E9001"

def text : Fault → String
  | invalidSnapshot detail => "invalid snapshot: " ++ detail
  | emptyNodeId index =>
    "node at position " ++ toString index ++ " has an empty id"
  | duplicateNode id => "duplicate node id: " ++ id
  | unknownNode id => "node not found in snapshot: " ++ id
  | invalidConfig detail => "invalid config: " ++ detail
  | cancelled => "computation cancelled"

def summary : Fault → String
  | invalidSnapshot _ => "Snapshot could not be parsed"
  | emptyNodeId _ => "Node with empty id"
  | duplicateNode _ => "Duplicate node id"
  | unknownNode _ => "Node not found in snapshot"
  | invalidConfig _ => "Invalid analytics configuration"
  | cancelled => "Computation cancelled"

def hint : Fault → Option String
  | invalidSnapshot _ =>
    some "Every node needs an `id`; every edge needs `from` and `to`."
  | emptyNodeId _ => some "Assign a non-empty id to every node."
  | duplicateNode _ => some "Node ids must be unique within one snapshot."
  | unknownNode _ => some "Query endpoints must be ids present in the snapshot."
  | invalidConfig _ =>
    some "Fix the value in the casenet config file and retry."
  | cancelled => none

def isInput : Fault → Bool
  | invalidSnapshot _ | emptyNodeId _ | duplicateNode _ | unknownNode _ => true
  | invalidConfig _ | cancelled => false

end Fault

end LinkAnalysis
