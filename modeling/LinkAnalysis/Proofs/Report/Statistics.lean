import LinkAnalysis.Proofs.Graph.Forest
import LinkAnalysis.Proofs.Report.Connectivity
import LinkAnalysis.Proofs.Community.Summary
import Mathlib

/-!
# Statistics in reports

The statistics of a network come from its list of links, its adjacency and its
plain graph.  They are numbers of one graph, and obey the laws that bind the
numbers of nodes, edges, degrees and components of any graph.
-/

namespace LinkAnalysis

open Network

/-- The laws of graphs, for the statistics of a snapshot. -/
structure Statistics.Lawful (s : Snapshot) (t : Statistics ℚ) : Prop where
  nodeCount_eq : t.nodeCount = s.nodes.length
  linkCount_eq : t.linkCount = (ofSnapshot s).wholeGraph.edgeSet.ncard
  /-- The number of pairs fits a word as long as the plain graph has indices for
  all nodes. -/
  density_eq : 2 ≤ t.nodeCount → t.nodeCount < 2 ^ 32 →
    t.density = t.linkCount / (t.nodeCount * (t.nodeCount - 1) / 2)
  density_mem_Icc : t.nodeCount < 2 ^ 32 → t.density ∈ Set.Icc 0 1
  density_eq_one_iff : 2 ≤ t.nodeCount → t.nodeCount < 2 ^ 32 →
    (t.density = 1 ↔ ∀ v w, v ≠ w → (ofSnapshot s).wholeGraph.Adj v w)
  averageDegree_eq : t.averageDegree =
    (∑ v : Fin (ofSnapshot s).size, ((ofSnapshot s).adjacency.degree v : ℚ)) /
      t.nodeCount
  averageDegree_le : t.averageDegree ≤ t.maxDegree
  maxDegree_le : t.maxDegree ≤ t.nodeCount - 1
  isolatedCount_le : t.isolatedCount ≤ t.componentCount
  componentCount_le : t.componentCount ≤ t.nodeCount
  nodeCount_le : t.nodeCount ≤ t.componentCount + t.linkCount
  /-- Nodes are exactly as many as components and links where there is no
  cycle. -/
  isAcyclic_iff : t.nodeCount = t.componentCount + t.linkCount ↔
    (ofSnapshot s).wholeGraph.IsAcyclic

namespace Network

variable (s : Snapshot)

theorem size_eq_length_nodes : (ofSnapshot s).size = s.nodes.length := by
  rw [size_ofSnapshot, (sortedIds_perm s).length_eq, List.length_map]

theorem linkCount_eq_ncard_edgeSet :
    (ofSnapshot s).linkCount = (ofSnapshot s).wholeGraph.edgeSet.ncard := by
  have hall := countP_links s
    (p := fun _ => true) (P := fun _ => True) fun _ _ _ _ => by simp
  rw [List.countP_true, Array.length_toList] at hall
  rw [linkCount, hall, Set.sep_true]

theorem linkCount_le_choose :
    (ofSnapshot s).linkCount ≤ (ofSnapshot s).size.choose 2 := by
  have hle := (ofSnapshot s).wholeGraph.ncard_edgeSet_le
  rwa [Nat.card_fin, ← linkCount_eq_ncard_edgeSet] at hle

theorem linkCount_eq_choose_iff :
    (ofSnapshot s).linkCount = (ofSnapshot s).size.choose 2 ↔
      ∀ v w, v ≠ w → (ofSnapshot s).wholeGraph.Adj v w := by
  rw [← SimpleGraph.ncard_edgeSet_eq_choose_iff, Nat.card_fin,
    linkCount_eq_ncard_edgeSet]

/-- Every link is seen from both its ends. -/
theorem sum_degree :
    ∑ v : Fin (ofSnapshot s).size, (ofSnapshot s).adjacency.degree v =
      2 * (ofSnapshot s).linkCount := by
  rw [linkCount_eq_ncard_edgeSet, ← SimpleGraph.sum_ncard_neighborSet]
  exact Finset.sum_congr rfl fun v _ => degree_ofSnapshot s v

/-- A node is joined with other nodes only. -/
theorem degree_lt_size (v : Fin (ofSnapshot s).size) :
    (ofSnapshot s).adjacency.degree v < (ofSnapshot s).size := by
  have hssubset : (ofSnapshot s).wholeGraph.neighborSet v ⊂ Set.univ :=
    Set.ssubset_univ_iff.mpr fun hneighbors =>
      (ofSnapshot s).wholeGraph.irrefl (hneighbors ▸ Set.mem_univ v)
  calc (ofSnapshot s).adjacency.degree v
      = ((ofSnapshot s).wholeGraph.neighborSet v).ncard := degree_ofSnapshot s v
    _ < (Set.univ : Set (Fin (ofSnapshot s).size)).ncard :=
        Set.ncard_lt_ncard hssubset
    _ = (ofSnapshot s).size := by rw [Set.ncard_univ, Nat.card_fin]

theorem mem_degrees_iff {d : Nat} :
    d ∈ (ofSnapshot s).adjacency.nodes.map (ofSnapshot s).adjacency.degree ↔
      ∃ v : Fin (ofSnapshot s).size, (ofSnapshot s).adjacency.degree v = d := by
  rw [List.mem_map, Adjacency.nodes, size_adjacency_ofSnapshot]
  constructor
  · rintro ⟨v, hv, rfl⟩
    exact ⟨⟨v, List.mem_range.mp hv⟩, rfl⟩
  · rintro ⟨v, rfl⟩
    exact ⟨v, List.mem_range.mpr v.isLt, rfl⟩

theorem degree_le_maxDegree (v : Fin (ofSnapshot s).size) :
    (ofSnapshot s).adjacency.degree v ≤
      ((ofSnapshot s).statistics : Statistics ℚ).maxDegree :=
  (isGreatest_foldl_max 0 _).2
    (List.mem_cons_of_mem 0 ((mem_degrees_iff s).mpr ⟨v, rfl⟩))

theorem maxDegree_le_pred :
    ((ofSnapshot s).statistics : Statistics ℚ).maxDegree ≤
      (ofSnapshot s).size - 1 := by
  rcases List.mem_cons.mp (isGreatest_foldl_max 0
    ((ofSnapshot s).adjacency.nodes.map (ofSnapshot s).adjacency.degree)).1
    with hzero | hmem
  · exact hzero.trans_le (Nat.zero_le _)
  · obtain ⟨v, hv⟩ := (mem_degrees_iff s).mp hmem
    exact hv.symm.trans_le (Nat.le_pred_of_lt (degree_lt_size s v))

theorem averageDegree_eq_mean :
    averageDegree (ofSnapshot s).size (ofSnapshot s).linkCount =
      (∑ v : Fin (ofSnapshot s).size, ((ofSnapshot s).adjacency.degree v : ℚ)) /
        (ofSnapshot s).size := by
  rw [← Nat.cast_sum, sum_degree, averageDegree]
  split
  case isTrue hnone => rw [hnone, Nat.cast_zero, div_zero, Score.zero_rat]
  case isFalse => rfl

theorem averageDegree_le_maxDegree :
    (averageDegree (ofSnapshot s).size (ofSnapshot s).linkCount : ℚ) ≤
      ((ofSnapshot s).statistics : Statistics ℚ).maxDegree := by
  rw [averageDegree_eq_mean]
  refine div_le_of_le_mul₀ (Nat.cast_nonneg _) (Nat.cast_nonneg _) ?_
  calc ∑ v : Fin (ofSnapshot s).size, ((ofSnapshot s).adjacency.degree v : ℚ)
      ≤ ∑ _v : Fin (ofSnapshot s).size,
          (((ofSnapshot s).statistics : Statistics ℚ).maxDegree : ℚ) :=
        Finset.sum_le_sum fun v _ => Nat.cast_le.mpr (degree_le_maxDegree s v)
    _ = ((ofSnapshot s).statistics : Statistics ℚ).maxDegree *
          ((ofSnapshot s).size : ℚ) := by
        rw [Finset.sum_const, Finset.card_univ, Fintype.card_fin,
          nsmul_eq_mul, mul_comm]

theorem componentCount_statistics :
    ((ofSnapshot s).statistics : Statistics ℚ).componentCount =
      (ofSnapshot s).componentCountWithout [] :=
  componentCountBy_ofSnapshot s Labels.lawful

theorem isolatedCount_le_componentCount :
    ((ofSnapshot s).statistics : Statistics ℚ).isolatedCount ≤
      (ofSnapshot s).componentCountWithout [] := by
  rw [← length_componentsWithout (simpleEnds_ofSnapshot s)]
  exact (countP_degree_eq_zero s).trans_le List.countP_le_length

theorem size_le_and_eq_iff_isAcyclic :
    (ofSnapshot s).size ≤
        (ofSnapshot s).componentCountWithout [] + (ofSnapshot s).linkCount ∧
      ((ofSnapshot s).size =
          (ofSnapshot s).componentCountWithout [] + (ofSnapshot s).linkCount ↔
        (ofSnapshot s).wholeGraph.IsAcyclic) := by
  have hforest := (ofSnapshot s).wholeGraph.card_le_and_card_eq_iff
  rw [Nat.card_fin, ← linkCount_eq_ncard_edgeSet] at hforest
  rwa [componentCountWithout, ← wholeGraph_eq]

/-- The statistics of a network obey the laws of graphs. -/
theorem statistics_lawful :
    ((ofSnapshot s).statistics : Statistics ℚ).Lawful s := by
  have hforest := size_le_and_eq_iff_isAcyclic s
  have hdensity : 2 ≤ (ofSnapshot s).size → (ofSnapshot s).size < 2 ^ 32 →
      (density (ofSnapshot s).size (ofSnapshot s).linkCount : ℚ) =
        (ofSnapshot s).linkCount / (ofSnapshot s).size.choose 2 := density_rat
  rw [← componentCount_statistics s] at hforest
  refine
    { nodeCount_eq := size_eq_length_nodes s
      linkCount_eq := linkCount_eq_ncard_edgeSet s
      density_eq := fun hpair hindex => ?_
      density_mem_Icc :=
        fun hindex => density_mem_Icc hindex (linkCount_le_choose s)
      density_eq_one_iff := fun hpair hindex => ?_
      averageDegree_eq := averageDegree_eq_mean s
      averageDegree_le := averageDegree_le_maxDegree s
      maxDegree_le := maxDegree_le_pred s
      isolatedCount_le :=
        (isolatedCount_le_componentCount s).trans_eq
          (componentCount_statistics s).symm
      componentCount_le := (componentCount_statistics s).trans_le
        (componentCountWithout_le_size _ [])
      nodeCount_le := hforest.1
      isAcyclic_iff := hforest.2 }
  · rw [← Nat.cast_choose_two]
    exact hdensity hpair hindex
  · have hpos : ((ofSnapshot s).size.choose 2 : ℚ) ≠ 0 :=
      Nat.cast_ne_zero.mpr (Nat.choose_pos hpair).ne'
    rw [← linkCount_eq_choose_iff, ← Nat.cast_inj (R := ℚ),
      ← div_eq_one_iff_eq hpos, ← hdensity hpair hindex]
    rfl

end Network

end LinkAnalysis
