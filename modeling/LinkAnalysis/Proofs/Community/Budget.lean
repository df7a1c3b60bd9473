import LinkAnalysis.Proofs.Centrality.Betweenness
import LinkAnalysis.Proofs.Community.Cuts
import LinkAnalysis.Proofs.Community.Reported

/-!
# Larger budgets

A run with a larger budget, or a larger target, makes the same cuts as the
smaller run and possibly some more: it has no reason to stop before the smaller
run stops.  More cuts leave fewer edges, so the components of the larger run lie
within those of the smaller one.
-/

namespace LinkAnalysis

open Network

/-! ## Two runs on one network -/

namespace Network

variable {α : Type} [Score α] {net : Network}

/-- Runs with one target that the smaller one has reached stop at the same
cut. -/
theorem HaltsAt.eq_of_targetReached
    {target limit limit' k k' : Nat} {reason' : StopReason}
    (hhalts : net.HaltsAt α target limit k .targetReached)
    (hhalts' : net.HaltsAt α target limit' k' reason')
    (hle : k ≤ k') :
    k' = k ∧ reason' = .targetReached := by
  have hreached : net.haltReason? α target limit' k = some .targetReached :=
    haltReason?_eq_targetReached_iff.mpr
      (haltReason?_eq_targetReached_iff.mp hhalts.reason_eq)
  rcases hle.eq_or_lt with rfl | hlt
  · have hreason := hhalts'.reason_eq
    rw [hreached] at hreason
    exact ⟨rfl, (Option.some.inj hreason).symm⟩
  · have hnone := hhalts'.goes_on k hlt
    rw [hreached] at hnone
    exact absurd hnone (Option.some_ne_none _)

/-- What more removals have left lies within what fewer have left. -/
theorem exists_group_of_subset
    (hnet : SimpleEnds net.size net.ends)
    {removed removed' : List Nat}
    (hsubset : removed ⊆ removed')
    {group : List Nat}
    (hgroup : group ∈ net.componentsWithout removed') :
    ∃! whole, whole ∈ net.componentsWithout removed ∧ group ⊆ whole := by
  rcases (mem_componentsWithout hnet removed').mp hgroup with ⟨c, rfl⟩
  rcases c.exists_members_subset (graphWithout_anti hsubset) with ⟨d, hd⟩
  rcases c.exists_mem_members with ⟨v, hv⟩
  refine ⟨d.members, ⟨(mem_componentsWithout hnet removed).mpr ⟨d, rfl⟩, hd⟩,
    fun whole hwhole => ?_⟩
  rcases (mem_componentsWithout hnet removed).mp hwhole.1 with ⟨d', rfl⟩
  rw [SimpleGraph.ConnectedComponent.eq_of_mem_members (hwhole.2 hv) (hd hv)]

end Network

/-! ## Partitions -/

/-- The second partition extends the first: it goes on where the first
stopped. -/
structure Partition.Extends (net : Network) (config config' : CommunityConfig)
    (p p' : Partition) : Prop where
  removed_prefix : p.removed <+: p'.removed
  componentCount_le : p.componentCount ≤ p'.componentCount
  /-- Where everything is reported, each community lies within one of the first
  partition. -/
  exists_community : config.minSize ≤ 1 → net.size ≤ config.maxCommunities →
    ∀ group ∈ p'.communities, ∃! whole, whole ∈ p.communities ∧ group ⊆ whole
  eq_of_targetReached : p.stopReason = .targetReached →
    config'.maxTarget = config.maxTarget → p' = p

theorem targetCommunities_mono
    {n : Nat} {config config' : CommunityConfig}
    (hshare : config'.nodesPerCommunity = config.nodesPerCommunity)
    (hmost : config.maxTarget ≤ config'.maxTarget) :
    targetCommunities n config ≤ targetCommunities n config' := by
  unfold targetCommunities
  rw [hshare]
  exact min_le_min_right _ hmost

/-- With more iterations, or with more communities to aim at, a run only goes on
where the smaller run stopped. -/
theorem detectCommunities_extends
    (α : Type) [Score α] (s : Snapshot) (config : CommunityConfig)
    {maxTarget maxIterations : Nat}
    (hmost : config.maxTarget ≤ maxTarget)
    (hbudget : config.maxIterations ≤ maxIterations) :
    ∃ p p', detectCommunities α .live (Network.ofSnapshot s) config = .ok p ∧
      detectCommunities α .live (Network.ofSnapshot s)
      { config with maxTarget := maxTarget, maxIterations := maxIterations } =
      .ok p' ∧ p.Extends (Network.ofSnapshot s) config
      { config with maxTarget := maxTarget, maxIterations := maxIterations }
      p' := by
  set net := Network.ofSnapshot s with hdef
  set config' : CommunityConfig :=
    { config with maxTarget := maxTarget, maxIterations := maxIterations }
      with hconfig'
  have hnet : SimpleEnds net.size net.ends := simpleEnds_ofSnapshot s
  rcases Network.exists_haltsAt α hnet config with ⟨k, reason, hhalt, hrun⟩
  rcases Network.exists_haltsAt α hnet config' with ⟨k', reason', hhalt', hrun'⟩
  have htarget :
      targetCommunities net.size config ≤ targetCommunities net.size config' :=
    targetCommunities_mono rfl hmost
  have hle : k ≤ k' := hhalt.le_of_le hhalt' htarget (min_le_min_left _ hbudget)
  have hsuffix : net.cuts α k <:+ net.cuts α k' := cuts_suffix_of_le hle
  refine ⟨_, _, hrun, hrun', ?_⟩
  refine
    { removed_prefix := List.reverse_prefix.mpr hsuffix
      componentCount_le := ?_
      exists_community := fun hmin hmax group hgroup => ?_
      eq_of_targetReached := fun hreason hsame => ?_ }
  · simp only [partitionAfter, length_componentsWithout hnet]
    exact componentCountWithout_mono hsuffix.subset
  · have hgroups : group ∈ net.componentsWithout (net.cuts α k') :=
      (mem_reported_of_size_le hnet _ config' hmin hmax).mp hgroup
    simp only [partitionAfter, mem_reported_of_size_le hnet _ config hmin hmax]
    exact exists_group_of_subset hnet hsuffix.subset hgroups
  · have hsameTarget : targetCommunities net.size config' =
        targetCommunities net.size config := by
      unfold targetCommunities
      rw [hsame]
    change reason = .targetReached at hreason
    subst reason
    rw [hsameTarget] at hhalt'
    rcases hhalt.eq_of_targetReached hhalt' hle with ⟨rfl, rfl⟩
    unfold partitionAfter
    rw [hsameTarget]
    rfl

/-- One cut and two components are allowed first, four cuts and three components
then. -/
theorem detectCommunities_extends_rowSnapshot :
    2 ≤ 3 ∧
      1 ≤ 4 ∧
      ∃ p p',
        detectCommunities ℚ .live (Network.ofSnapshot rowSnapshot)
            ⟨1, 5, 2, 1, 1⟩ = .ok p ∧
        detectCommunities ℚ .live (Network.ofSnapshot rowSnapshot)
            ⟨1, 5, 3, 1, 4⟩ = .ok p' ∧
        p.Extends (Network.ofSnapshot rowSnapshot) ⟨1, 5, 2, 1, 1⟩
          ⟨1, 5, 3, 1, 4⟩ p' :=
  ⟨by decide, by
    decide, detectCommunities_extends ℚ rowSnapshot ⟨1, 5, 2, 1, 1⟩ (by
      decide) (by decide)⟩

end LinkAnalysis
