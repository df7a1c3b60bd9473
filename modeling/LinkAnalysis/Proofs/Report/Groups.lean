import LinkAnalysis.Proofs.Network.Partition
import LinkAnalysis.Report.Analysis
import Mathlib

/-!
# Records of groups

Computations speak of node numbers and reports of ids.  Numbers and ids of a
network correspond one to one, so the records of a list of groups tell which
nodes are in which group, how large the groups are and which links they contain.
-/

namespace LinkAnalysis

namespace Network

/-! ## Ids -/

section Ids

variable {s : Snapshot}

theorem indexOf?_ofSnapshot_iff {id : String} {v : Nat} :
    (ofSnapshot s).indexOf? id = some v ↔
      v < (ofSnapshot s).size ∧ (ofSnapshot s).idOf v = id := by
  rw [indexOf?, numbers_ofSnapshot s, getElem?_sortedIds_iff]

theorem idOf_injective
    {v w : Nat}
    (hv : v < (ofSnapshot s).size)
    (hw : w < (ofSnapshot s).size)
    (heq : (ofSnapshot s).idOf v = (ofSnapshot s).idOf w) :
    v = w := by
  have hget : ∀ {u : Nat}, u < (ofSnapshot s).size →
      (ofSnapshot s).indexOf? ((ofSnapshot s).idOf u) = some u :=
    fun hu => indexOf?_ofSnapshot_iff.mpr ⟨hu, rfl⟩
  exact Option.some_inj.mp ((hget hv).symm.trans (heq ▸ hget hw))

/-- The ids of all nodes are the ids of the snapshot. -/
theorem map_idOf_range_perm (s : Snapshot) :
    ((List.range (ofSnapshot s).size).map (ofSnapshot s).idOf).Perm
      (s.nodes.map Node.id) := by
  have hsorted : (List.range (ofSnapshot s).size).map (ofSnapshot s).idOf =
      sortedIds s := by
    apply List.ext_getElem?
    intro v
    rw [List.getElem?_map]
    by_cases hv : v < (ofSnapshot s).size
    · rw [List.getElem?_range hv, (getElem?_sortedIds_iff s).mpr ⟨hv, rfl⟩,
        Option.map_some]
    · rw [size_ofSnapshot] at hv ⊢
      rw [List.getElem?_eq_none (by simpa using hv),
        List.getElem?_eq_none (by simpa using hv), Option.map_none]
  rw [hsorted]
  exact sortedIds_perm s

theorem exists_idOf_eq {x : String} (hx : x ∈ s.nodes.map Node.id) :
    ∃ v : Fin (ofSnapshot s).size, (ofSnapshot s).idOf v = x := by
  obtain ⟨v, hv, heq⟩ :=
    List.mem_map.mp ((map_idOf_range_perm s).mem_iff.mpr hx)
  exact ⟨⟨v, List.mem_range.mp hv⟩, heq⟩

theorem endpoints_idOf (v w : Fin (ofSnapshot s).size) :
    (ofSnapshot s).endpoints ((ofSnapshot s).idOf v) ((ofSnapshot s).idOf w) =
      .ok (v.val, w.val) := by
  have hget : ∀ u : Fin (ofSnapshot s).size,
      (ofSnapshot s).indexOf? ((ofSnapshot s).idOf u) = some u.val :=
    fun u => indexOf?_ofSnapshot_iff.mpr ⟨u.isLt, rfl⟩
  rw [endpoints, hget v, hget w]

theorem nodes_of_endpoints
    {source target : String} {ends : Nat × Nat}
    (hends : (ofSnapshot s).endpoints source target = .ok ends) :
    (ends.1 < (ofSnapshot s).size ∧ (ofSnapshot s).idOf ends.1 = source) ∧
      ends.2 < (ofSnapshot s).size ∧
      (ofSnapshot s).idOf ends.2 = target := by
  rw [endpoints] at hends
  cases hsource : (ofSnapshot s).indexOf? source with
  | none => simp [hsource] at hends
  | some a =>
      cases htarget : (ofSnapshot s).indexOf? target with
      | none => simp [hsource, htarget] at hends
      | some b =>
          have heq : (a, b) = ends := by simpa [hsource, htarget] using hends
          rw [← heq]
          exact ⟨indexOf?_ofSnapshot_iff.mp hsource,
            indexOf?_ofSnapshot_iff.mp htarget⟩

theorem idOf_mem_map_iff
    {v : Nat} {group : List Nat}
    (hv : v < (ofSnapshot s).size)
    (hgroup : ∀ w ∈ group, w < (ofSnapshot s).size) :
    (ofSnapshot s).idOf v ∈ group.map (ofSnapshot s).idOf ↔ v ∈ group := by
  constructor
  · intro hmem
    obtain ⟨w, hw, heq⟩ := List.mem_map.mp hmem
    exact idOf_injective (hgroup w hw) hv heq ▸ hw
  · exact List.mem_map_of_mem

end Ids

/-! ## Records -/

section Records

variable {α : Type} [Score α] (net : Network) (groups : List (List Nat))

theorem getElem?_groupRecords (position : Nat) :
    (net.groupRecords groups : List (GroupRecord α))[position]? =
      groups[position]?.map (net.groupRecord position) := by
  rw [groupRecords, List.getElem?_map, List.getElem?_zipIdx, Option.map_map,
    Nat.zero_add]
  rfl

theorem mem_groupRecords {r : GroupRecord α} :
    r ∈ net.groupRecords groups ↔ ∃ position group,
      groups[position]? = some group ∧ net.groupRecord position group = r := by
  simp only [List.mem_iff_getElem?, getElem?_groupRecords,
    Option.map_eq_some_iff]

theorem map_members_groupRecords :
    (net.groupRecords groups : List (GroupRecord α)).map GroupRecord.members =
      groups.map (List.map net.idOf) := by
  apply List.ext_getElem?
  intro position
  rw [List.getElem?_map, getElem?_groupRecords, Option.map_map,
    List.getElem?_map]
  rfl

theorem length_groupRecords :
    (net.groupRecords groups : List (GroupRecord α)).length =
      groups.length := by
  rw [groupRecords, List.length_map, List.length_zipIdx]

/-- Whatever is counted of the members only is counted of the groups. -/
theorem map_groupRecords {β : Type} (f : List String → β) :
    ((net.groupRecords groups : List (GroupRecord α)).map fun r =>
          f r.members) = groups.map fun group => f (group.map net.idOf) := by
  have hmap :=
    congrArg (List.map f) (map_members_groupRecords (α := α) net groups)
  rwa [List.map_map, List.map_map] at hmap

theorem flatMap_members_groupRecords :
    (net.groupRecords groups : List (GroupRecord α)).flatMap
        GroupRecord.members = groups.flatten.map net.idOf := by
  rw [List.flatMap_def, map_members_groupRecords, List.map_flatten]

/-- The number of links between nodes with these ids. -/
def linkCountAmong (ids : List String) : Nat :=
  net.links.toList.countP fun l =>
    decide (net.idOf l.low ∈ ids ∧ net.idOf l.high ∈ ids)

theorem length_linksWithin
    (s : Snapshot) {group : List Nat}
    (hgroup : ∀ v ∈ group, v < (ofSnapshot s).size) :
    ((ofSnapshot s).linksWithin group).length =
      (ofSnapshot s).linkCountAmong (group.map (ofSnapshot s).idOf) := by
  rw [linksWithin, ← List.countP_eq_length_filter, linkCountAmong]
  apply List.countP_congr
  intro l hl
  obtain ⟨hlow, hhigh, -⟩ := link_ofSnapshot s (Array.mem_toList_iff.mp hl)
  simp [idOf_mem_map_iff (hlow.trans hhigh) hgroup,
    idOf_mem_map_iff hhigh hgroup]

theorem density_groupRecord
    (s : Snapshot) {group : List Nat} (position : Nat)
    (hgroup : ∀ v ∈ group, v < (ofSnapshot s).size) :
    ((ofSnapshot s).groupRecord position group : GroupRecord α).density =
      density group.length
        ((ofSnapshot s).linkCountAmong (group.map (ofSnapshot s).idOf)) := by
  rw [← length_linksWithin s hgroup]
  rfl

end Records

/-! ## Records of components -/

section Components

variable {α : Type} [Score α] {s : Snapshot} {removed : List Nat}

theorem idOf_mem_map_members_iff
    {c : ((ofSnapshot s).graphWithout removed).ConnectedComponent}
    {v : Fin (ofSnapshot s).size} :
    (ofSnapshot s).idOf v ∈ c.members.map (ofSnapshot s).idOf ↔
      ((ofSnapshot s).graphWithout removed).connectedComponentMk v = c := by
  rw [idOf_mem_map_iff v.isLt fun w hw =>
    (SimpleGraph.ConnectedComponent.mem_members.mp hw).1]
  exact SimpleGraph.ConnectedComponent.val_mem_members

theorem exists_component_of_mem_groupRecords
    {groups : List (List Nat)}
    (hgroups : groups ⊆ (ofSnapshot s).componentsWithout removed)
    {r : GroupRecord α}
    (hr : r ∈ (ofSnapshot s).groupRecords groups) :
    ∃ c : ((ofSnapshot s).graphWithout removed).ConnectedComponent,
      c.members ∈ groups ∧ r.members = c.members.map (ofSnapshot s).idOf := by
  rcases (mem_groupRecords _ _).mp hr with ⟨position, group, hget, rfl⟩
  have hgroup := List.mem_of_getElem? hget
  rcases (mem_componentsWithout (simpleEnds_ofSnapshot s) removed).mp
    (hgroups hgroup) with ⟨c, rfl⟩
  exact ⟨c, hgroup, rfl⟩

end Components

end Network

end LinkAnalysis
