import LinkAnalysis.Proofs.Community.Reported
import LinkAnalysis.Proofs.Report.Groups
import Mathlib

/-!
# The report on communities

The communities of a report are whole components of what the removals have left,
and every id that stands in none of them is listed as ungrouped.  How large a
community must be and how many are reported is decided after the last removal,
so neither has an influence on the removals.
-/

namespace LinkAnalysis

open Network

/-! ## The division behind the report -/

/-- Whatever the limits of the report are, the same links are removed for the
same reason. -/
theorem exists_detectCommunities_eq
    (α : Type) [Score α] (s : Snapshot) (config : CommunityConfig) :
    ∃ removed reason count,
      removed.Nodup ∧
      (∀ e ∈ removed, e < (Network.ofSnapshot s).linkCount) ∧
      ∀ minSize maxCommunities,
        detectCommunities α .live (Network.ofSnapshot s)
            { config with
              minSize := minSize, maxCommunities := maxCommunities } =
          .ok
            { communities := reported
                { config with
                  minSize := minSize, maxCommunities := maxCommunities }
                ((Network.ofSnapshot s).componentsWithout removed)
              stopReason := reason
              removed := removed
              componentCount := count
              target :=
                targetCommunities (Network.ofSnapshot s).size config } := by
  obtain ⟨d, reason, hrun, hstopped⟩ :=
    Division.exists_run_eq α (simpleEnds_ofSnapshot s)
      (min (Network.ofSnapshot s).linkCount config.maxIterations)
      (Division.underway_start (Network.ofSnapshot s)
      (targetCommunities (Network.ofSnapshot s).size config))
  have hbest :
      (Network.ofSnapshot s).componentsWithout d.removed.reverse = d.best := by
    rw [hstopped.best_eq, componentsWithout_congr fun e => List.mem_reverse]
  refine ⟨d.removed.reverse,
    reason, d.best.length, List.nodup_reverse.mpr hstopped.removed_nodup,
    fun e he => hstopped.removed_lt e (List.mem_reverse.mp he),
    fun minSize maxCommunities => ?_⟩
  have htarget : targetCommunities (Network.ofSnapshot s).size
      { config with minSize := minSize, maxCommunities := maxCommunities } =
        targetCommunities (Network.ofSnapshot s).size config := rfl
  rw [detectCommunities, htarget, hrun, hbest]
  rfl

/-! ## The order of records -/

/-- Longer lists of ids stand first, and of lists of one length that with the
smaller first id. -/
def ListedBefore (x y : List String) : Prop :=
  y.length < x.length ∨
    x.length = y.length ∧ ∃ a ∈ x, ∀ b ∈ y, utf8Bytes a < utf8Bytes b

section Order

variable {s : Snapshot} {removed : List Nat}

theorem Network.utf8Bytes_idOf_lt
    {v w : Nat}
    (hlt : v < w)
    (hw : w < (ofSnapshot s).size) :
    utf8Bytes ((ofSnapshot s).idOf v) < utf8Bytes ((ofSnapshot s).idOf w) := by
  have hget : ∀ {u : Nat}, u < (ofSnapshot s).size →
      (sortedIds s)[u]? = some ((ofSnapshot s).idOf u) :=
    fun hu => (getElem?_sortedIds_iff s).mpr ⟨hu, rfl⟩
  rcases List.getElem?_eq_some_iff.mp (hget (hlt.trans hw)) with ⟨hv', hv⟩
  rcases List.getElem?_eq_some_iff.mp (hget hw) with ⟨hw', hw⟩
  rw [← hv, ← hw]
  exact utf8Bytes_lt_iff.mpr
    (List.pairwise_iff_getElem.mp (sortedIds_ascending s) v w hv' hw' hlt)

theorem Network.map_idOf_members_ascending
    (c : ((ofSnapshot s).graphWithout removed).ConnectedComponent) :
    (c.members.map (ofSnapshot s).idOf).Pairwise fun x y =>
      utf8Bytes x < utf8Bytes y := by
  rw [List.pairwise_map]
  apply c.members_ascending.imp_of_mem
  intro v w _ hw hlt
  exact utf8Bytes_idOf_lt hlt
    (SimpleGraph.ConnectedComponent.mem_members.mp hw).1

theorem Network.listedBefore_of_precedes
    {c d : ((ofSnapshot s).graphWithout removed).ConnectedComponent}
    (hprecedes : c.Precedes d) :
    ListedBefore (c.members.map (ofSnapshot s).idOf)
      (d.members.map (ofSnapshot s).idOf) := by
  rw [ListedBefore, List.length_map,
    List.length_map, SimpleGraph.ConnectedComponent.length_members,
    SimpleGraph.ConnectedComponent.length_members]
  apply hprecedes.imp id
  intro hboth
  rcases hboth with ⟨heq, v, hv, hmin⟩
  refine ⟨heq, _, List.mem_map_of_mem
    (SimpleGraph.ConnectedComponent.val_mem_members.mpr hv), ?_⟩
  intro y hy
  rcases List.mem_map.mp hy with ⟨w, hw, rfl⟩
  rcases SimpleGraph.ConnectedComponent.mem_members.mp hw with ⟨hlt, hmk⟩
  exact utf8Bytes_idOf_lt (hmin ⟨w, hlt⟩ hmk) hlt

end Order

/-! ## The report -/

/-- A report that accounts for every id, after these links were removed. -/
structure CommunityReport.Accounts {α : Type} (config : CommunityConfig)
    (s : Snapshot) (removed : List Nat) (r : CommunityReport α) : Prop where
  removed_nodup : removed.Nodup
  removed_lt : ∀ e ∈ removed, e < (Network.ofSnapshot s).linkCount
  removed_eq : r.removed = removed.map (Network.ofSnapshot s).keyOf
  /-- Every id stands in one community or is ungrouped, and stands there
  once. -/
  members_append_ungrouped_perm :
    (r.communities.flatMap GroupRecord.members ++ r.ungrouped).Perm
      (s.nodes.map Node.id)
  /-- A community is a whole component of the links that are left. -/
  mem_members_iff : ∀ c ∈ r.communities, ∃ v : Fin (Network.ofSnapshot s).size,
    ∀ w : Fin (Network.ofSnapshot s).size,
      (Network.ofSnapshot s).idOf w ∈ c.members ↔
        ((Network.ofSnapshot s).graphWithout removed).Reachable v w
  members_ascending : ∀ c ∈ r.communities,
    c.members.Pairwise fun x y => utf8Bytes x < utf8Bytes y
  minSize_le : ∀ c ∈ r.communities, config.minSize ≤ c.size
  ordered : (r.communities.map GroupRecord.members).Pairwise ListedBefore
  number_eq : ∀ i c, r.communities[i]? = some c → c.number = i + 1
  length_le : r.communities.length ≤ config.maxCommunities
  /-- An id is ungrouped if its component is too small, or too many components
  stand before it. -/
  mem_ungrouped_iff : ∀ v : Fin (Network.ofSnapshot s).size,
    (Network.ofSnapshot s).idOf v ∈ r.ungrouped ↔
      (((Network.ofSnapshot s).graphWithout removed).connectedComponentMk
              v).supp.ncard < config.minSize ∨
        config.maxCommunities ≤ {d :
            ((Network.ofSnapshot s).graphWithout removed).ConnectedComponent |
            d.Precedes (SimpleGraph.connectedComponentMk _ v)}.ncard

section Report

variable {α : Type} [Score α] (config : Config α) (s : Snapshot)

/-- What is reported of a partition into components accounts for every id. -/
theorem CommunityReport.accounts
    {p : Partition} {r : CommunityReport α}
    (hnodup : p.removed.Nodup)
    (hlt : ∀ e ∈ p.removed, e < (Network.ofSnapshot s).linkCount)
    (hp : p.communities = reported config.community
      ((Network.ofSnapshot s).componentsWithout p.removed))
    (hremoved : r.removed = p.removed.map (Network.ofSnapshot s).keyOf)
    (hcommunities :
      r.communities = (Network.ofSnapshot s).groupRecords p.communities)
    (hungrouped : r.ungrouped =
      ((List.range (Network.ofSnapshot s).size).filter fun v =>
          !p.communities.flatten.contains v).map (Network.ofSnapshot s).idOf) :
    r.Accounts config.community s p.removed := by
  have hnet := simpleEnds_ofSnapshot s
  have hsubset := reported_subset hnet p.removed config.community
  have hperm := flatten_reported_append_perm hnet p.removed config.community
  obtain ⟨order, hsorted, hlarge, horder⟩ :=
    exists_order_reported hnet p.removed config.community
  rw [← hp] at hsubset hperm horder
  have hrecord : ∀ c ∈ r.communities, ∃ d ∈ order,
      c.members = d.members.map (Network.ofSnapshot s).idOf := by
    intro c hc
    rw [hcommunities] at hc
    rcases exists_component_of_mem_groupRecords hsubset hc
      with ⟨d, hd, hmembers⟩
    rw [horder, List.mem_map_of_injective
      SimpleGraph.ConnectedComponent.members_injective] at hd
    exact ⟨d, List.mem_of_mem_take hd, hmembers⟩
  refine
    { removed_nodup := hnodup
      removed_lt := hlt
      removed_eq := hremoved
      members_append_ungrouped_perm := ?_
      mem_members_iff := fun c hc => ?_
      members_ascending := fun c hc => ?_
      minSize_le := fun c hc => ?_
      ordered := ?_
      number_eq := fun i c hc => ?_
      length_le := ?_
      mem_ungrouped_iff := fun v => ?_ }
  · rw [hcommunities, hungrouped, flatMap_members_groupRecords,
      ← List.map_append]
    exact (hperm.map _).trans (map_idOf_range_perm s)
  · rcases hrecord c hc with ⟨d, -, hmembers⟩
    rcases d.exists_head_members with ⟨v, -, hv⟩
    refine ⟨v, fun w => ?_⟩
    have hmk :
        ((Network.ofSnapshot s).graphWithout p.removed).connectedComponentMk v =
          d := hv
    rw [hmembers, idOf_mem_map_members_iff, ← hmk,
      SimpleGraph.ConnectedComponent.eq]
    exact SimpleGraph.reachable_comm
  · rcases hrecord c hc with ⟨d, -, hmembers⟩
    rw [hmembers]
    exact map_idOf_members_ascending d
  · rcases hrecord c hc with ⟨d, hd, hmembers⟩
    rw [GroupRecord.size, hmembers, List.length_map,
      SimpleGraph.ConnectedComponent.length_members]
    exact (hlarge d).mp hd
  · rw [hcommunities, map_members_groupRecords, horder, List.map_map,
      List.pairwise_map]
    exact (hsorted.sublist (List.take_sublist _ _)).imp listedBefore_of_precedes
  · rw [hcommunities, getElem?_groupRecords, Option.map_eq_some_iff] at hc
    rcases hc with ⟨group, -, rfl⟩
    rfl
  · rw [hcommunities, length_groupRecords, hp, reported]
    exact List.length_take_le _ _
  · have hmem :=
      mem_flatten_reported_iff hnet p.removed config.community (v := v)
    rw [members_mem_reported_iff hnet, ← hp] at hmem
    have hrange : ∀ w ∈ (List.range (Network.ofSnapshot s).size).filter fun v =>
        !p.communities.flatten.contains v, w < (Network.ofSnapshot s).size :=
      fun w hw => List.mem_range.mp (List.mem_filter.mp hw).1
    rw [hungrouped, idOf_mem_map_iff v.isLt hrange, List.mem_filter,
      and_iff_right (List.mem_range.mpr v.isLt), Bool.not_eq_true',
      ← Bool.not_eq_true, List.contains_iff_mem, hmem, not_and_or,
      not_le, not_lt]

theorem Analysis.exists_communities
    {p : Partition}
    (hp : detectCommunities α .live (Network.ofSnapshot s) config.community =
      .ok p) :
    ∃ r : CommunityReport α,
      Analysis.communities config .live s = .ok r ∧
      r.communities = (Network.ofSnapshot s).groupRecords p.communities ∧
      r.ungrouped = ((List.range (Network.ofSnapshot s).size).filter fun v =>
          !p.communities.flatten.contains v).map (Network.ofSnapshot s).idOf ∧
      r.stopReason = p.stopReason ∧
      r.removed = p.removed.map (Network.ofSnapshot s).keyOf ∧
      r.target = p.target := by
  unfold Analysis.communities
  simp only [hp]
  exact ⟨_, rfl, rfl, rfl, rfl, rfl, rfl⟩

/-- The report on communities accounts for every id, and its limits have no
influence on the removals. -/
theorem Analysis.communities_account :
    ∃ p r,
      detectCommunities α .live (Network.ofSnapshot s) config.community =
        .ok p ∧
      Analysis.communities config .live s = .ok r ∧
      r.Accounts config.community s p.removed ∧
      ∀ minSize maxCommunities, ∃ r',
        Analysis.communities
            { config with
              community :=
                { config.community with
                  minSize := minSize
                  maxCommunities := maxCommunities } } .live s = .ok r' ∧
        r'.stopReason = r.stopReason ∧
        r'.iterations = r.iterations ∧
        r'.removed = r.removed ∧
        r'.target = r.target := by
  obtain ⟨removed, reason, count, hnodup, hlt, hdetect⟩ :=
    exists_detectCommunities_eq α s config.community
  have hown := hdetect config.community.minSize config.community.maxCommunities
  obtain ⟨r, hr, hcommunities, hungrouped, hreason, hremoved, htarget⟩ :=
    Analysis.exists_communities config s hown
  refine ⟨_, r, hown, hr, CommunityReport.accounts config s hnodup hlt rfl
    hremoved hcommunities hungrouped, fun minSize maxCommunities => ?_⟩
  obtain ⟨r', hr', -, -, hreason', hremoved', htarget'⟩ :=
    Analysis.exists_communities
      { config with
        community :=
          { config.community with
            minSize := minSize
            maxCommunities := maxCommunities } }
      s (hdetect minSize maxCommunities)
  have hsame : r'.removed = r.removed := hremoved'.trans hremoved.symm
  exact ⟨r', hr', hreason'.trans hreason.symm, congrArg List.length hsame,
    hsame, htarget'.trans htarget.symm⟩

end Report

end LinkAnalysis
