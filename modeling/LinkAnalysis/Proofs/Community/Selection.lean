import LinkAnalysis.Proofs.Centrality.Betweenness
import LinkAnalysis.Proofs.Community.Division

/-!
# Selecting a link

In exact arithmetic a link can be selected as long as any link is left: every
link scores at least two, since the two shortest walks between its ends use it.
Once no link is left every node is a component, and no target asks for more
components than there are nodes.  So no run stops for lack of structure.
-/

namespace LinkAnalysis

open Network

/-! ## The largest score -/

/-- The largest score is that of a link, unless no score is positive. -/
theorem isGreatest_scores (scores : Array ℚ) (remaining : List Nat) :
    IsGreatest {x | x ∈ 0 :: remaining.map fun e => scores.getD e 0}
      (largestScore scores remaining) := by
  have hfold : largestScore scores remaining =
      (remaining.map fun e => scores.getD e 0).foldl max 0 := by
    rw [List.foldl_map, largestScore, Score.zero_rat]
    simp only [Score.larger_rat]
  rw [hfold]
  exact isGreatest_foldl_max 0 _

theorem getD_le_largestScore
    {scores : Array ℚ} {remaining : List Nat} {e : Nat}
    (he : e ∈ remaining) :
    scores.getD e 0 ≤ largestScore scores remaining :=
  (isGreatest_scores scores remaining).2
    (List.mem_cons_of_mem 0 (List.mem_map.mpr ⟨e, he, rfl⟩))

theorem exists_getD_eq_largestScore
    {scores : Array ℚ} {remaining : List Nat}
    (hpos : 0 < largestScore scores remaining) :
    ∃ e ∈ remaining, scores.getD e 0 = largestScore scores remaining := by
  rcases List.mem_cons.mp (isGreatest_scores scores remaining).1
    with hzero | hmem
  · exact absurd hzero hpos.ne'
  · exact List.mem_map.mp hmem

theorem exists_selectLink?_eq
    {scores : Array ℚ} {remaining : List Nat} {e : Nat}
    (he : e ∈ remaining)
    (hpos : 0 < scores.getD e 0) :
    ∃ e' ∈ remaining, selectLink? remaining scores = some e' := by
  have hmost : 0 < largestScore scores remaining :=
    hpos.trans_le (getD_le_largestScore he)
  obtain ⟨top, htop, hscore⟩ := exists_getD_eq_largestScore hmost
  have hwidth : (0 : ℚ) ≤ tieWidth := by
    rw [tieWidth, Score.count_rat, Score.count_rat]
    positivity
  have hfloor : largestScore scores remaining -
      tieWidth * Score.larger (largestScore scores remaining) Score.one ≤
      scores.getD top Score.zero := by
    rw [Score.zero_rat, hscore, Score.larger_rat]
    have : 0 ≤ tieWidth * max (largestScore scores remaining) Score.one :=
      mul_nonneg hwidth (hmost.le.trans (le_max_left _ _))
    linarith
  have hsome : (selectLink? remaining scores).isSome := by
    have hnot : ¬ largestScore scores remaining ≤ Score.zero := by
      rw [Score.zero_rat]
      exact not_le.mpr hmost
    simp only [selectLink?, Score.isFinite_rat, decide_eq_false hnot,
      Bool.not_false, Bool.and_true, if_true, List.find?_isSome]
    exact ⟨top, htop, decide_eq_true hfloor⟩
  obtain ⟨e', he'⟩ := Option.isSome_iff_exists.mp hsome
  exact ⟨e', mem_of_selectLink? he', he'⟩

/-! ## The target -/

/-- No more components are aimed at than there are nodes. -/
theorem targetCommunities_le (n : Nat) (config : CommunityConfig) :
    targetCommunities n config ≤ n := by
  have hshare : 1 ≤ max config.nodesPerCommunity 1 := le_max_right _ _
  generalize hs : max config.nodesPerCommunity 1 = share at hshare
  have hceil : (n + share - 1) / share ≤ n := by
    rcases Nat.eq_zero_or_pos n with rfl | hn
    · rw [Nat.div_eq_of_lt (by omega)]
    · apply Nat.div_le_of_le_mul
      have : n + share ≤ share * n + 1 := by nlinarith
      omega
  unfold targetCommunities
  simp only [hs]
  exact (min_le_right _ _).trans hceil

/-! ## Runs in exact arithmetic -/

section Exact

variable {net : Network} (hnet : SimpleEnds net.size net.ends)

include hnet

theorem length_componentsWithout_of_eq_nil
    {removed : List Nat}
    (hempty : net.linksWithout removed = []) :
    (net.componentsWithout removed).length = net.size := by
  have hbot : net.graphWithout removed = ⊥ := by
    ext u v
    simp [graphWithout, graphOf, linkGraph, hempty, SimpleGraph.fromRel_adj]
  have hbijective :
      Function.Bijective (net.graphWithout removed).connectedComponentMk := by
    refine ⟨fun u v heq => ?_, fun c => c.ind fun v => ⟨v, rfl⟩⟩
    rw [SimpleGraph.ConnectedComponent.eq, hbot,
      SimpleGraph.reachable_bot] at heq
    exact heq
  rw [length_componentsWithout hnet, componentCountWithout,
    ← Nat.card_eq_of_bijective _ hbijective, Nat.card_eq_fintype_card,
    Fintype.card_fin]

theorem exists_selected (removed : List Nat) :
    ∃ b : Betweenness ℚ,
      accumulate .live (net.adjacencyOf (net.linksWithout removed))
          net.linkCount = .ok b ∧
      (∀ e ∈ net.linksWithout removed, 2 ≤ b.link.getD e 0) ∧
      (net.linksWithout removed ≠ [] → ∃ e ∈ net.linksWithout removed,
        selectLink? (net.linksWithout removed) b.link = some e) := by
  obtain ⟨b, hb, hexact⟩ :=
    accumulate_isExact hnet (activeLinks_linksWithout net removed)
  rw [size_ends] at hb
  have htwo : ∀ e ∈ net.linksWithout removed, 2 ≤ b.link.getD e 0 := by
    intro e he
    obtain ⟨u, v, hget, hadj⟩ := exists_adj_of_mem_linksWithout hnet he
    rw [Array.getD_eq_getD_getElem?, hexact.link_eq e u v he hget,
      Option.getD_some]
    exact SimpleGraph.two_le_edgeBetweenness hadj
  refine ⟨b, hb, htwo, fun hleft => ?_⟩
  obtain ⟨e, he⟩ := List.exists_mem_of_ne_nil _ hleft
  exact exists_selectLink?_eq he (lt_of_lt_of_le two_pos (htwo e he))

theorem Division.Stopped.ne_noStructure
    {target limit : Nat} {d : Division} {reason : StopReason}
    (htarget : target ≤ net.size)
    (hstopped : d.Stopped ℚ net target limit reason) :
    reason ≠ .noStructure := by
  rintro rfl
  have hfew : ¬ target ≤ d.best.length := by
    rw [← hstopped.targetReached_iff]
    simp
  obtain ⟨b, hb, -, hselect⟩ := exists_selected hnet d.removed
  rcases hstopped.of_noStructure rfl with hempty | ⟨scores, hscores, hnone⟩
  · rw [hstopped.best_eq,
      length_componentsWithout_of_eq_nil hnet hempty] at hfew
    exact hfew htarget
  · obtain rfl := Except.ok.inj (hb.symm.trans hscores)
    by_cases hempty : net.linksWithout d.removed = []
    · rw [hstopped.best_eq,
        length_componentsWithout_of_eq_nil hnet hempty] at hfew
      exact hfew htarget
    · obtain ⟨e, -, he⟩ := hselect hempty
      simp [hnone] at he

end Exact

/-- No run stops for lack of structure: as long as a link is left every link
scores at least two and one is selected, and once none is left there are as many
components as nodes. -/
theorem detectCommunities_ne_noStructure
    (s : Snapshot) (config : CommunityConfig) :
    (∃ p, detectCommunities ℚ .live (Network.ofSnapshot s) config = .ok p ∧
        p.stopReason ≠ .noStructure) ∧
      ∀ removed,
        (∃ b : Betweenness ℚ,
          accumulate .live ((Network.ofSnapshot s).adjacencyOf
              ((Network.ofSnapshot s).linksWithout removed))
              (Network.ofSnapshot s).linkCount = .ok b ∧
          (∀ e ∈ (Network.ofSnapshot s).linksWithout removed,
            2 ≤ b.link.getD e 0) ∧
          ((Network.ofSnapshot s).linksWithout removed ≠ [] →
            ∃ e ∈ (Network.ofSnapshot s).linksWithout removed,
              selectLink? ((Network.ofSnapshot s).linksWithout removed) b.link =
                some e)) ∧
        ((Network.ofSnapshot s).linksWithout removed = [] →
          ((Network.ofSnapshot s).componentsWithout removed).length =
              (Network.ofSnapshot s).size ∧
            targetCommunities (Network.ofSnapshot s).size config ≤
              (Network.ofSnapshot s).size) := by
  have hnet := simpleEnds_ofSnapshot s
  have htarget := targetCommunities_le (Network.ofSnapshot s).size config
  refine ⟨?_, fun removed => ⟨exists_selected hnet removed, fun hempty =>
    ⟨length_componentsWithout_of_eq_nil hnet hempty, htarget⟩⟩⟩
  obtain ⟨d, reason, hrun, hstopped⟩ := Division.exists_run_eq ℚ hnet
    (min (Network.ofSnapshot s).linkCount config.maxIterations)
    (Division.underway_start (Network.ofSnapshot s)
      (targetCommunities (Network.ofSnapshot s).size config))
  exact ⟨_,
    by rw [detectCommunities, hrun]; rfl, hstopped.ne_noStructure hnet htarget⟩

end LinkAnalysis
