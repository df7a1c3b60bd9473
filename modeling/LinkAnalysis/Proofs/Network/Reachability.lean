import LinkAnalysis.Proofs.Network.GroupOrder
import LinkAnalysis.Proofs.Network.Partition

/-!
# The partition by reachability

The components found in an adjacency are the classes of nodes that walks join:
every node stands in one of them, and two nodes stand in the same one if a walk
leads from one to the other.  They are listed in one form only, by smallest
members and each in ascending order, and sorting arranges them in the one order
by size.  All this holds of links from a node to itself and of parallel links as
well, and however the sets are stored whose representatives the components are
gathered from.
-/

namespace LinkAnalysis

open scoped Classical

open Adjacency (InRange ofEnds Walk)
open SimpleGraph.ConnectedComponent (members)

/-- The groups are the classes of nodes joined by walks, in canonical form. -/
structure Adjacency.PartitionsInto (adj : Adjacency)
    (groups : List (List Nat)) : Prop where
  /-- Every node stands in exactly one group, and there once. -/
  flatten_perm : groups.flatten.Perm (List.range adj.size)
  mem_iff_walk : ∀ v < adj.size, ∀ w,
    (∃ group ∈ groups, v ∈ group ∧ w ∈ group) ↔ ∃ k, adj.Walk v k w
  ne_nil : ∀ group ∈ groups, group ≠ []
  ascending : ∀ group ∈ groups, group.Pairwise (· < ·)
  ordered : groups.Pairwise StartsBefore
  /-- Sorting changes no group. -/
  sorted_perm : (sortGroups groups).Perm groups
  sorted_iff : ∀ arranged : List (List Nat), arranged.Perm groups →
    (arranged.Pairwise StandsBefore ↔ arranged = sortGroups groups)

/-! ## Classes of a graph -/

section Classes

variable {n : Nat} {G : SimpleGraph (Fin n)}

theorem JoinedIn.symm {v w : Nat} (hjoined : JoinedIn G v w) :
    JoinedIn G w v := by
  obtain ⟨hv, hw, hreach⟩ := hjoined
  exact ⟨hw, hv, hreach.symm⟩

theorem mem_flatten_classes_iff {v w : Nat} (hv : v < n) :
    (∃ group ∈ classes (JoinedIn G) n, v ∈ group ∧ w ∈ group) ↔
      JoinedIn G v w := by
  constructor
  · rintro ⟨group, hgroup, hvmem, hwmem⟩
    obtain ⟨c, rfl⟩ := mem_classes_joinedIn.mp hgroup
    obtain ⟨_, hmk⟩ := SimpleGraph.ConnectedComponent.mem_members.mp hvmem
    obtain ⟨hw, hmk'⟩ := SimpleGraph.ConnectedComponent.mem_members.mp hwmem
    exact ⟨hv, hw, SimpleGraph.ConnectedComponent.exact (hmk.trans hmk'.symm)⟩
  · rintro ⟨hv, hw, hreach⟩
    refine ⟨_, mem_classes_joinedIn.mpr ⟨G.connectedComponentMk ⟨v, hv⟩, rfl⟩,
      ?_, ?_⟩
    · exact SimpleGraph.ConnectedComponent.mem_members.mpr ⟨hv, rfl⟩
    · exact SimpleGraph.ConnectedComponent.mem_members.mpr
        ⟨hw, (SimpleGraph.ConnectedComponent.sound hreach).symm⟩

theorem le_of_mem_firsts
    {v w : Nat}
    (hv : v ∈ firsts (JoinedIn G) n)
    (hjoined : JoinedIn G v w) :
    v ≤ w :=
  not_lt.mp fun hlt => (mem_firsts.mp hv).2 w hlt hjoined.symm

theorem classes_joinedIn_startsBefore (G : SimpleGraph (Fin n)) :
    (classes (JoinedIn G) n).Pairwise StartsBefore := by
  have hascending : (firsts (JoinedIn G) n).Pairwise (· < ·) :=
    List.pairwise_lt_range.filter _
  rw [classes, List.pairwise_map]
  refine hascending.imp_of_mem fun {v w} hv hw hlt =>
    ⟨v, ?_, fun u hu => ?_, fun u hu => ?_⟩
  · have hvn := (mem_firsts.mp hv).1
    exact List.mem_filter.mpr ⟨List.mem_range.mpr hvn,
      decide_eq_true ⟨hvn, hvn, .refl _⟩⟩
  · exact le_of_mem_firsts hv (of_decide_eq_true (List.mem_filter.mp hu).2)
  · exact hlt.trans_le
      (le_of_mem_firsts hw (of_decide_eq_true (List.mem_filter.mp hu).2))

theorem separateGroups_classes (G : SimpleGraph (Fin n)) :
    SeparateGroups (classes (JoinedIn G) n) where
  ne_nil group hgroup := by
    obtain ⟨c, rfl⟩ := mem_classes_joinedIn.mp hgroup
    obtain ⟨v, hv⟩ := c.exists_mem_members
    exact List.ne_nil_of_mem hv
  ascending group hgroup := by
    obtain ⟨c, rfl⟩ := mem_classes_joinedIn.mp hgroup
    exact c.members_ascending
  disjoint := by
    have hflatten :=
      (flatten_classes_joinedIn_perm G).nodup_iff.mpr List.nodup_range
    exact (List.nodup_flatten.mp hflatten).2

end Classes

/-! ## Components -/

section Components

variable {σ : Type} {uf : UnionFind σ}
  {fits : Nat → σ → Prop} {rep : σ → Nat → Nat}
variable {n : Nat} {ends : Array (Nat × Nat)} {active : List Nat}

theorem joinedIn_iff_exists_walk
    (hrange : InRange n ends active)
    {v w : Nat}
    (hv : v < n) :
    JoinedIn (linkGraph n ends active) v w ↔
      ∃ k, (ofEnds n ends active).Walk v k w := by
  constructor
  · rintro ⟨_, hw, ⟨p⟩⟩
    exact ⟨p.length, Adjacency.walk_of_walk p⟩
  · rintro ⟨k, hwalk⟩
    obtain ⟨hw, p, -⟩ := Adjacency.Walk.exists_walk (s := ⟨v, hv⟩) hrange hwalk
    exact ⟨hv, hw, ⟨p⟩⟩

/-- The components found are the partition of the nodes by reachability. -/
theorem componentsBy_partitions
    (huf : uf.Lawful fits rep)
    (hrange : InRange n ends active) :
    (ofEnds n ends active).PartitionsInto
      (componentsBy uf (ofEnds n ends active)) := by
  have hseparate := separateGroups_classes (linkGraph n ends active)
  rw [componentsBy_ofEnds huf hrange]
  refine
    { flatten_perm := ?_
      mem_iff_walk := fun v hv w => ?_
      ne_nil := hseparate.ne_nil
      ascending := hseparate.ascending
      ordered := classes_joinedIn_startsBefore _
      sorted_perm := sortGroups_perm _
      sorted_iff :=
        fun arranged hperm => ⟨hseparate.eq_sortGroups hperm, fun heq => ?_⟩ }
  · rw [Adjacency.size_ofEnds]
    exact flatten_classes_joinedIn_perm _
  · rw [Adjacency.size_ofEnds] at hv
    rw [mem_flatten_classes_iff hv, joinedIn_iff_exists_walk hrange hv]
  · rw [heq]
    exact hseparate.sortGroups_standsBefore

/-- Six nodes with two parallel links and one from a node to itself. -/
def tangledEnds : Array (Nat × Nat) := #[(3, 0), (1, 2), (0, 3), (4, 4), (5, 3)]

theorem componentsBy_partitions_tangledEnds :
    Labels.unionFind.Lawful Labels.Fits Labels.labelOf ∧
      InRange 6 tangledEnds [4, 0, 3, 1, 2] ∧
      (ofEnds 6 tangledEnds [4, 0, 3, 1, 2]).PartitionsInto
        [[0, 3, 5], [1, 2], [4]] ∧
      sortGroups [[0, 3, 5], [1, 2], [4]] = [[0, 3, 5], [1, 2], [4]] := by
  have hrange : InRange 6 tangledEnds [4, 0, 3, 1, 2] :=
    Adjacency.inRange_iff.mp (by decide)
  have hgroups : componentsBy Labels.unionFind
        (ofEnds 6 tangledEnds [4, 0, 3, 1, 2]) = [[0, 3, 5], [1, 2], [4]] := by
    cbv
  have hpartitions := componentsBy_partitions Labels.lawful hrange
  rw [hgroups] at hpartitions
  exact ⟨Labels.lawful, hrange, hpartitions, by cbv⟩

end Components

end LinkAnalysis
