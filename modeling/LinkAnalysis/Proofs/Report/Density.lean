import LinkAnalysis.Proofs.Community.Summary
import LinkAnalysis.Proofs.Report.Communities
import LinkAnalysis.Proofs.Report.Connectivity
import Mathlib

/-!
# Densities in reports

The groups of a report are components, of the whole network or of what the
removals have left of it.  The links that were removed are still counted, so a
community is joined in the whole network as well, and no record is less dense
than a tree of its size.
-/

namespace SimpleGraph.ConnectedComponent

theorem exists_map_val_eq_members
    {n : Nat} {G : SimpleGraph (Fin n)} (c : G.ConnectedComponent) :
    ∃ nodes : List (Fin n),
      nodes.map Fin.val = c.members ∧
      nodes.Nodup ∧
      {v | v ∈ nodes} = c.supp := by
  obtain ⟨nodes, hnodes⟩ :
      c.members ∈ Set.range (List.map (Fin.val : Fin n → Nat)) := by
    rw [Set.range_list_map]
    intro v hv
    exact ⟨⟨v, (mem_members.mp hv).1⟩, rfl⟩
  refine ⟨nodes, hnodes, List.Nodup.of_map Fin.val (hnodes ▸ c.members_nodup),
    ?_⟩
  ext v
  rw [Set.mem_ofPred_eq, ← List.mem_map_of_injective Fin.val_injective, hnodes,
    val_mem_members, mem_supp_iff]

end SimpleGraph.ConnectedComponent

namespace LinkAnalysis

open Network

/-- A record is right about the distinct nodes that it is made of, and links
join these. -/
structure GroupRecord.Describes (s : Snapshot)
    (nodes : List (Fin (Network.ofSnapshot s).size))
    (r : GroupRecord ℚ) : Prop where
  nodup : nodes.Nodup
  members_eq : r.members = (nodes.map Fin.val).map (Network.ofSnapshot s).idOf
  exists_summary : ∃ g : GroupSummary ℚ,
    g.Describes (Network.ofSnapshot s).wholeGraph nodes ∧
    r.density = g.density ∧
    r.central = g.central.map (Network.ofSnapshot s).idOf
  two_div_size_le : 2 ≤ r.size → 2 / (r.size : ℚ) ≤ r.density

namespace Network

variable {s : Snapshot} {removed : List Nat} {groups : List (List Nat)}
  {r : GroupRecord ℚ}

theorem length_le_length_linksWithin
    (c : ((ofSnapshot s).graphWithout removed).ConnectedComponent)
    {nodes : List (Fin (ofSnapshot s).size)}
    (hnodup : nodes.Nodup)
    (hsupp : {v | v ∈ nodes} = c.supp) :
    nodes.length ≤
      ((ofSnapshot s).linksWithin (nodes.map Fin.val)).length + 1 := by
  rw [length_linksWithin_eq_ncard, ← ncard_mem_eq_length hnodup, hsupp,
    wholeGraph_eq]
  exact c.ncard_le_ncard_edgesWithin
    (graphWithout_anti (List.nil_subset removed))

theorem describes_of_mem_groupRecords
    (hindex : (ofSnapshot s).size < 2 ^ 32)
    (hgroups : groups ⊆ (ofSnapshot s).componentsWithout removed)
    (hr : r ∈ (ofSnapshot s).groupRecords groups) :
    ∃ c : ((ofSnapshot s).graphWithout removed).ConnectedComponent, ∃ nodes,
      {v | v ∈ nodes} = c.supp ∧ r.Describes s nodes := by
  obtain ⟨position, group, hget, rfl⟩ := (mem_groupRecords _ _).mp hr
  obtain ⟨c, rfl⟩ :=
    (mem_componentsWithout (simpleEnds_ofSnapshot s) removed).mp
      (hgroups (List.mem_of_getElem? hget))
  obtain ⟨nodes, hnodes, hnodup, hsupp⟩ := c.exists_map_val_eq_members
  rw [← hnodes]
  refine ⟨c, nodes, hsupp,
    { nodup := hnodup
      members_eq := rfl
      exists_summary := ⟨_, describes_summary s nodes hindex hnodup, rfl, rfl⟩
      two_div_size_le := fun hlarge => ?_ }⟩
  have hsize : GroupRecord.size ((ofSnapshot s).groupRecord position
        (nodes.map Fin.val) : GroupRecord ℚ) = nodes.length := by
    rw [GroupRecord.size, groupRecord, List.length_map, List.length_map]
  rw [hsize] at hlarge ⊢
  calc
    2 / (nodes.length : ℚ) ≤ density nodes.length
      ((ofSnapshot s).linksWithin (nodes.map Fin.val)).length :=
        two_div_le_density hlarge ((length_le_of_nodup hnodup).trans_lt hindex)
          (length_le_length_linksWithin c hnodup hsupp)
    _ = ((ofSnapshot s).summary (nodes.map Fin.val) : GroupSummary ℚ).density :=
        (density_summary s nodes).symm

theorem exists_central_of_describes
    {c : ((ofSnapshot s).graphWithout []).ConnectedComponent}
    {nodes : List (Fin (ofSnapshot s).size)}
    (hsupp : {v | v ∈ nodes} = c.supp)
    (hr : r.Describes s nodes) :
    ∃ v : Fin (ofSnapshot s).size,
      r.central = some ((ofSnapshot s).idOf v) ∧
      (ofSnapshot s).idOf v ∈ r.members ∧
      ∀ w : Fin (ofSnapshot s).size, (ofSnapshot s).idOf w ∈ r.members →
        (ofSnapshot s).adjacency.degree w ≤
          (ofSnapshot s).adjacency.degree v := by
  obtain ⟨g, hg, -, hcentral⟩ := hr.exists_summary
  have hmem : ∀ v : Fin (ofSnapshot s).size,
      (ofSnapshot s).idOf v ∈ r.members ↔ v ∈ nodes := by
    intro v
    rw [hr.members_eq, idOf_mem_map_iff v.isLt (by simp),
      List.mem_map_of_injective Fin.val_injective]
  have hdegree : ∀ v ∈ nodes,
      ((ofSnapshot s).wholeGraph.neighborsWithin {u | u ∈ nodes} v).ncard =
        (ofSnapshot s).adjacency.degree v := by
    intro v hv
    have hv : v ∈ c.supp := hsupp ▸ hv
    rw [degree_ofSnapshot, hsupp, wholeGraph_eq, c.neighborsWithin_supp hv]
  cases hsome : g.central with
  | none =>
      obtain ⟨v, hv⟩ := c.nonempty_supp
      rw [← hsupp, hg.central_eq_none_iff.mp hsome] at hv
      simp at hv
  | some x =>
      obtain ⟨v, hv, rfl, hmost⟩ := (hg.central_eq_some_iff x).mp hsome
      refine ⟨v, by
        rw [hcentral, hsome, Option.map_some], (hmem v).mpr hv, fun w hw => ?_⟩
      have hle := hmost w ((hmem w).mp hw)
      rw [hdegree v hv, hdegree w ((hmem w).mp hw)] at hle
      rcases hle with hlt | ⟨heq, -⟩
      · exact hlt.le
      · exact heq.le

end Network

/-- Summaries are right about all groups of distinct nodes.  No group in a
report is less dense than a tree, and the central node of a component has most
neighbours of all its nodes.  Nodes are numbered in 32 bits, which bounds their
number. -/
theorem Analysis.groups_described
    (s : Snapshot)
    (hindex : (Network.ofSnapshot s).size < 2 ^ 32)
    (config : Config ℚ) :
    (∀ nodes : List (Fin (Network.ofSnapshot s).size), nodes.Nodup →
        ∃ g : GroupSummary ℚ,
          (Network.ofSnapshot s).summary? (nodes.map Fin.val) = some g ∧
          g.Describes (Network.ofSnapshot s).wholeGraph nodes) ∧
      ∃ c r,
        Analysis.components .live s = .ok c ∧
        Analysis.communities config .live s = .ok r ∧
        (∀ record ∈ c.components ++ r.communities, ∃ nodes,
          record.Describes s nodes) ∧
        ∀ record ∈ c.components, ∃ v : Fin (Network.ofSnapshot s).size,
          record.central = some ((Network.ofSnapshot s).idOf v) ∧
          (Network.ofSnapshot s).idOf v ∈ record.members ∧
          ∀ w : Fin (Network.ofSnapshot s).size,
            (Network.ofSnapshot s).idOf w ∈ record.members →
              (Network.ofSnapshot s).adjacency.degree w ≤
                (Network.ofSnapshot s).adjacency.degree v := by
  constructor
  · intro nodes hnodup
    refine ⟨_, ?_, describes_summary s nodes hindex hnodup⟩
    rw [summary?, if_pos (by simp)]
  · have hsubset :
        sortGroups (LinkAnalysis.components (Network.ofSnapshot s).adjacency) ⊆
          (Network.ofSnapshot s).componentsWithout [] := by
      rw [components_ofSnapshot]
      exact (List.mergeSort_perm _ _).subset
    obtain ⟨removed, reason, count, -, -, hdetect⟩ :=
      exists_detectCommunities_eq ℚ s config.community
    obtain ⟨r, hr, hcommunities, -⟩ := Analysis.exists_communities config s
      (hdetect config.community.minSize config.community.maxCommunities)
    refine ⟨_, r, rfl, hr, fun record hrecord => ?_, fun record hrecord => ?_⟩
    · rcases List.mem_append.mp hrecord with hrecord | hrecord
      · obtain ⟨-, nodes, -, hdescribes⟩ :=
          describes_of_mem_groupRecords hindex hsubset hrecord
        exact ⟨nodes, hdescribes⟩
      · rw [hcommunities] at hrecord
        obtain ⟨-, nodes, -, hdescribes⟩ :=
          describes_of_mem_groupRecords hindex (reported_subset
            (simpleEnds_ofSnapshot s) removed config.community) hrecord
        exact ⟨nodes, hdescribes⟩
    · obtain ⟨c, nodes, hsupp, hdescribes⟩ :=
        describes_of_mem_groupRecords hindex hsubset hrecord
      exact exists_central_of_describes hsupp hdescribes

/-- In a row of three nodes, given in any order, the middle one is central and
two of three pairs are joined. -/
theorem Analysis.groups_described_rowSnapshot :
    (Network.ofSnapshot rowSnapshot).size < 2 ^ 32 ∧
      (∃ g : GroupSummary ℚ,
        (Network.ofSnapshot rowSnapshot).summary? [2, 0, 1] = some g ∧
        g.internalLinks = 2 ∧
        g.central = some 1 ∧
        g.density = 2 / 3) ∧
      ∃ c r,
        Analysis.components .live rowSnapshot = .ok c ∧
        Analysis.communities Config.default .live rowSnapshot = .ok r ∧
        ∀ record ∈ c.components ++ r.communities, 2 ≤ record.size →
          2 / (record.size : ℚ) ≤ record.density := by
  have hsize : (Network.ofSnapshot rowSnapshot).size = 3 := by cbv
  have hwithin : (Network.ofSnapshot rowSnapshot).linksWithin [2, 0, 1] =
      [⟨0, 1, "a|b"⟩, ⟨1, 2, "b|c"⟩] := by cbv
  have hcentral : mostCentral (degreeIn [⟨0, 1, "a|b"⟩, ⟨1, 2, "b|c"⟩])
        [2, 0, 1] = some 1 := by
    decide
  have hsummary : (Network.ofSnapshot rowSnapshot).summary? [2, 0, 1] =
      some (⟨2, density 3 2, some 1⟩ : GroupSummary ℚ) := by
    rw [summary?, if_pos (by rw [hsize]; decide), summary, hwithin, hcentral]
    rfl
  have hindex : (Network.ofSnapshot rowSnapshot).size < 2 ^ 32 :=
    hsize ▸ by decide
  obtain ⟨hgroups, c, r, hc, hr, hrecords, -⟩ :=
    Analysis.groups_described rowSnapshot hindex Config.default
  refine ⟨hindex, ?_, c, r, hc, hr, fun record hrecord => ?_⟩
  · obtain ⟨g, hg, hdescribes⟩ := hgroups [⟨2, hsize ▸ by decide⟩,
      ⟨0, hsize ▸ by decide⟩, ⟨1, hsize ▸ by decide⟩] (by simp)
    obtain rfl := Option.some.inj (hsummary.symm.trans hg)
    refine ⟨_, hsummary, rfl, rfl, ?_⟩
    rw [hdescribes.density_eq (Nat.le_succ 2)]
    norm_num
  · obtain ⟨nodes, hdescribes⟩ := hrecords record hrecord
    exact hdescribes.two_div_size_le

end LinkAnalysis
