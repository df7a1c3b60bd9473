import LinkAnalysis.Fault

/-!
# Snapshots

A snapshot is a case network as it was exported: nodes and directed edges.  Node
ids are non-empty and distinct.  An edge may name ids that no node has; such
edges are tolerated here, and counted when the network is built.

A snapshot grows by bare nodes and edges, and shrinks by nodes and edges.  Edges
that lose an end stay, like all edges that name unknown ids.
-/

namespace LinkAnalysis

/-- An entity of the case.  Its identity is the id; label and category are for
display. -/
structure Node where
  id : String
  label : String
  category : String
  deriving DecidableEq, Repr

def Node.bare (id : String) : Node := ⟨id, id, ""⟩

/-- A relationship between two entities, stored with a direction. -/
structure Edge where
  source : String
  target : String
  label : String
  category : String
  deriving DecidableEq, Repr

def Edge.bare (source target : String) : Edge := ⟨source, target, "", ""⟩

/-- The first node, from this position on, whose id is empty or was seen
before. -/
def firstOffence : List String → Nat → List Node → Option Fault
  | _, _, [] => none
  | seen, index, node :: more =>
    if node.id = "" then some (.emptyNodeId index)
    else if node.id ∈ seen then some (.duplicateNode node.id)
    else firstOffence (node.id :: seen) (index + 1) more

theorem id_ne_empty_of_firstOffence
    {seen : List String} {index : Nat} {nodes : List Node}
    (hoffence : firstOffence seen index nodes = none) :
    ∀ node ∈ nodes, node.id ≠ "" := by
  induction nodes generalizing seen index with
  | nil => simp
  | cons node more ih =>
    unfold firstOffence at hoffence
    split at hoffence
    · simp at hoffence
    · split at hoffence
      · simp at hoffence
      · intro other hother
        rcases List.mem_cons.mp hother with rfl | hmore
        · assumption
        · exact ih hoffence other hmore

theorem not_mem_of_firstOffence
    {seen : List String} {index : Nat} {nodes : List Node}
    (hoffence : firstOffence seen index nodes = none) :
    ∀ node ∈ nodes, node.id ∉ seen := by
  induction nodes generalizing seen index with
  | nil => simp
  | cons node more ih =>
    unfold firstOffence at hoffence
    split at hoffence
    · simp at hoffence
    · split at hoffence
      · simp at hoffence
      · intro other hother
        rcases List.mem_cons.mp hother with rfl | hmore
        · assumption
        · exact fun hseen =>
            ih hoffence other hmore (List.mem_cons_of_mem _ hseen)

theorem nodup_of_firstOffence
    {seen : List String} {index : Nat} {nodes : List Node}
    (hoffence : firstOffence seen index nodes = none) :
    (nodes.map Node.id).Nodup := by
  induction nodes generalizing seen index with
  | nil => simp
  | cons node more ih =>
    unfold firstOffence at hoffence
    split at hoffence
    · simp at hoffence
    · split at hoffence
      · simp at hoffence
      · simp only [List.map_cons, List.nodup_cons, List.mem_map,
          not_exists, not_and]
        refine ⟨fun other hother hid => ?_, ih hoffence⟩
        exact not_mem_of_firstOffence hoffence other hother
          (hid ▸ List.mem_cons_self)

structure Snapshot where
  nodes : List Node
  edges : List Edge
  id_ne_empty : ∀ node ∈ nodes, node.id ≠ ""
  ids_nodup : (nodes.map Node.id).Nodup

namespace Snapshot

def ofLists (nodes : List Node) (edges : List Edge) : Except Fault Snapshot :=
  match hoffence : firstOffence [] 0 nodes with
  | some fault => .error fault
  | none =>
    .ok ⟨nodes, edges, id_ne_empty_of_firstOffence hoffence,
      nodup_of_firstOffence hoffence⟩

def ofPairs (ids : List String)
    (pairs : List (String × String)) : Except Fault Snapshot :=
  ofLists (ids.map Node.bare) (pairs.map fun p => Edge.bare p.1 p.2)

def empty : Snapshot := ⟨[], [], by simp, by simp⟩

def node? (s : Snapshot) (id : String) : Option Node :=
  s.nodes.find? (·.id == id)

def labelOf (s : Snapshot) (id : String) : String :=
  match s.node? id with
  | some node => if node.label = "" then id else node.label
  | none => id

def extend (s : Snapshot) (ids : List String) (pairs : List (String × String)) :
    Except Fault Snapshot :=
  ofLists (s.nodes ++ ids.map Node.bare) (s.edges ++ pairs.map fun p =>
    Edge.bare p.1 p.2)

def prune (s : Snapshot) (ids : List String)
    (pairs : List (String × String)) : Snapshot where
  nodes := s.nodes.filter fun node => !ids.contains node.id
  edges := s.edges.filter fun e => !pairs.contains (e.source, e.target)
  id_ne_empty node hkept := s.id_ne_empty node (List.mem_filter.mp hkept).1
  ids_nodup := s.ids_nodup.sublist (List.filter_sublist.map Node.id)

end Snapshot

end LinkAnalysis
