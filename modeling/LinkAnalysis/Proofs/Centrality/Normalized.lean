import LinkAnalysis.Centrality.Ranking
import LinkAnalysis.Proofs.Centrality.Betweenness
import LinkAnalysis.Proofs.Centrality.Broker
import LinkAnalysis.Proofs.Graph.Extremes
import LinkAnalysis.Proofs.Strict.Betweenness
import Mathlib

/-!
# Normalized betweenness

The scores of nodes are shares of all pairs of other nodes, and they are so
without being clamped.  A node scores nothing if its neighbours are joined among
themselves, and it scores all there is if it is the centre of a star.  So the
brokers above the threshold zero are the nodes that two neighbours need.
-/

namespace LinkAnalysis

/-! ## Normalizing exact scores -/

theorem Score.clampUnit_of_mem_Icc {x : ℚ} (hx : x ∈ Set.Icc 0 1) :
    clampUnit x = x := by
  rw [clampUnit, zero_rat, one_rat, if_neg (not_lt.mpr hx.1),
    if_neg (not_lt.mpr hx.2)]

/-- The number of nodes fits half a word, so the number of pairs fits a word. -/
theorem pairs_lt_wordSize {n : Nat} (hlt : n < 2 ^ 32) :
    (n - 1) * (n - 2) < wordSize :=
  mul_lt_wordSize ((Nat.sub_le n 1).trans_lt hlt)
    ((Nat.sub_le n 2).trans_lt hlt)

theorem pairs_eq_zero {n : Nat} (hle : n ≤ 2) :
    (((n - 1) * (n - 2) : ℕ) : ℚ) = 0 := by
  rw [Nat.sub_eq_zero_of_le hle, Nat.mul_zero, Nat.cast_zero]

theorem pairs_ne_zero {n : Nat} (hle : 3 ≤ n) :
    (((n - 1) * (n - 2) : ℕ) : ℚ) ≠ 0 :=
  Nat.cast_ne_zero.mpr (Nat.mul_pos (by omega) (by omega)).ne'

theorem share_mem_Icc
    {sum : ℚ} {pairs : Nat}
    (hshare : sum ∈ Set.Icc (0 : ℚ) pairs) :
    sum / pairs ∈ Set.Icc (0 : ℚ) 1 :=
  ⟨div_nonneg hshare.1 (Nat.cast_nonneg pairs),
    div_le_one_of_le₀ hshare.2 (Nat.cast_nonneg pairs)⟩

/-- A sum of shares becomes a share of all pairs.  Where there are no pairs,
both are zero. -/
theorem getElem?_normalize
    {scores : Array ℚ} {n : Nat}
    (hsize : scores.size = n)
    (hn : n < 2 ^ 32)
    {v : Nat} {sum : ℚ}
    (hsum : scores[v]? = some sum)
    (hbounds : sum ∈ Set.Icc (0 : ℚ) ((n - 1) * (n - 2) : ℕ)) :
    (normalize scores)[v]? = some (sum / ((n - 1) * (n - 2) : ℕ)) := by
  simp only [normalize, hsize]
  split
  case isTrue hsmall =>
    rw [Array.getElem?_map, hsum, pairs_eq_zero hsmall, div_zero]
    exact congrArg some Score.zero_rat
  case isFalse hlarge =>
    have hpairs := pairs_ne_zero (not_le.mp hlarge)
    have hhalves : sum / 2 / (((n - 1) * (n - 2) : ℕ) / 2) =
        sum / ((n - 1) * (n - 2) : ℕ) := by
      field_simp
    rw [Array.getElem?_map, hsum, Score.halfProduct_rat (pairs_lt_wordSize hn),
      Score.count_rat, Option.map_some, Nat.cast_ofNat, hhalves,
      Score.clampUnit_of_mem_Icc (share_mem_Icc hbounds)]

/-! ## Scores of a graph -/

/-- The scores `b` of the nodes are their sums `raw` as shares of all pairs of
other nodes. -/
structure Betweenness.Normalizes {n : Nat} (G : SimpleGraph (Fin n))
    (raw b : Betweenness ℚ) : Prop where
  size_node : b.node.size = n
  raw_eq : ∀ v : Fin n, raw.node[v.val]? = some (G.nodeBetweenness v)
  node_eq : 3 ≤ n → ∀ v : Fin n, ∃ sum,
    raw.node[v.val]? = some sum ∧
    0 ≤ sum ∧
    sum ≤ ((n - 1) * (n - 2) : ℕ) ∧
    b.node[v.val]? = some (sum / ((n - 1) * (n - 2) : ℕ))
  node_eq_zero_of_le : n ≤ 2 → ∀ v : Fin n, b.node[v.val]? = some 0
  mem_Icc : ∀ score ∈ b.node, score ∈ Set.Icc 0 1
  node_eq_zero_iff : ∀ v : Fin n, b.node[v.val]? = some 0 ↔ G.Clustered v
  node_eq_one_iff :
    3 ≤ n → ∀ v : Fin n, b.node[v.val]? = some 1 ↔ G.IsStarCenter v
  brokers_nodup : ((brokers b.node 0).map Prod.fst).Nodup
  mem_brokers_iff : ∀ x, x ∈ (brokers b.node 0).map Prod.fst ↔
    ∃ v : Fin n, v.val = x ∧ ∃ u w, G.Adj v u ∧ G.Adj v w ∧ u ≠ w ∧ ¬ G.Adj u w

section Graph

variable {n : Nat} {G : SimpleGraph (Fin n)}

theorem nodeBetweenness_mem_Icc (v : Fin n) :
    G.nodeBetweenness v ∈ Set.Icc (0 : ℚ) ((n - 1) * (n - 2) : ℕ) := by
  have hle := SimpleGraph.nodeBetweenness_le (G := G) v
  rw [Fintype.card_fin] at hle
  exact ⟨SimpleGraph.nodeBetweenness_nonneg v, hle⟩

/-- The share is zero when the sum is, also where there are no pairs. -/
theorem share_eq_zero_iff {v : Fin n} :
    G.nodeBetweenness v / ((n - 1) * (n - 2) : ℕ) = 0 ↔ G.Clustered v := by
  rw [← SimpleGraph.nodeBetweenness_eq_zero_iff, div_eq_zero_iff]
  refine ⟨fun heither => heither.elim id fun hpairs => ?_, Or.inl⟩
  obtain ⟨hnonneg, hle⟩ := nodeBetweenness_mem_Icc (G := G) v
  exact le_antisymm (hpairs ▸ hle) hnonneg

theorem share_eq_one_iff (hn : 3 ≤ n) {v : Fin n} :
    G.nodeBetweenness v / ((n - 1) * (n - 2) : ℕ) = 1 ↔ G.IsStarCenter v := by
  have hmax := SimpleGraph.nodeBetweenness_eq_max_iff (G := G) (v := v) (by
    rwa [Fintype.card_fin])
  rw [Fintype.card_fin] at hmax
  rw [div_eq_one_iff_eq (pairs_ne_zero hn), hmax]

theorem normalizes_normalize
    {raw : Betweenness ℚ}
    (hn : n < 2 ^ 32)
    (hsize : raw.node.size = n)
    (hraw : ∀ v : Fin n, raw.node[v.val]? = some (G.nodeBetweenness v)) :
    Betweenness.Normalizes G raw { raw with node := normalize raw.node } := by
  have hnode : ∀ v : Fin n, (normalize raw.node)[v.val]? =
      some (G.nodeBetweenness v / ((n - 1) * (n - 2) : ℕ)) := fun v =>
    getElem?_normalize hsize hn (hraw v) (nodeBetweenness_mem_Icc v)
  have hnodes : (normalize raw.node).size = n :=
    (size_normalize raw.node).trans hsize
  have hexists : ∀ {x : Nat} {score : ℚ},
      (normalize raw.node)[x]? = some score → ∃ v : Fin n,
        v.val = x ∧ score = G.nodeBetweenness v / ((n - 1) * (n - 2) : ℕ) := by
    intro x score hx
    have hlt : x < n := hnodes ▸ (Array.getElem?_eq_some_iff.mp hx).1
    exact ⟨⟨x, hlt⟩, rfl, Option.some_inj.mp (hx.symm.trans (hnode ⟨x, hlt⟩))⟩
  refine
    { size_node := hnodes
      raw_eq := hraw
      node_eq := fun _ v => ?_
      node_eq_zero_of_le :=
        fun hsmall v => by rw [hnode, pairs_eq_zero hsmall, div_zero]
      mem_Icc := fun score hscore => ?_
      node_eq_zero_iff :=
        fun v => by rw [hnode, Option.some_inj, share_eq_zero_iff]
      node_eq_one_iff :=
        fun hlarge v => by rw [hnode, Option.some_inj, share_eq_one_iff hlarge]
      brokers_nodup := map_fst_brokers_nodup
      mem_brokers_iff := fun x => ?_ }
  · obtain ⟨hnonneg, hle⟩ := nodeBetweenness_mem_Icc (G := G) v
    exact ⟨_, hraw v, hnonneg, hle, hnode v⟩
  · obtain ⟨x, hx⟩ := Array.mem_iff_getElem?.mp hscore
    obtain ⟨v, -, rfl⟩ := hexists hx
    exact share_mem_Icc (nodeBetweenness_mem_Icc v)
  · rw [List.mem_map, Prod.exists]
    constructor
    · rintro ⟨x, score, hbroker, rfl⟩
      obtain ⟨hget, hpos⟩ := mem_brokers_iff.mp hbroker
      obtain ⟨v, hv, rfl⟩ := hexists hget
      exact ⟨v, hv, SimpleGraph.not_clustered_iff.mp fun hclustered =>
        hpos.ne' (share_eq_zero_iff.mpr hclustered)⟩
    · rintro ⟨v, rfl, hneighbors⟩
      have hne :=
        mt share_eq_zero_iff.mp (SimpleGraph.not_clustered_iff.mpr hneighbors)
      have hpos := lt_of_le_of_ne (share_mem_Icc (nodeBetweenness_mem_Icc v)).1
        (Ne.symm hne)
      exact ⟨v, _, mem_brokers_iff.mpr ⟨hnode v, hpos⟩, rfl⟩

end Graph

/-! ## Scores of a network -/

/-- The normalized scores of a network lie between zero and one by themselves,
and the extremes tell how the neighbours of a node are joined.  Nodes are
numbered in 32 bits, which bounds their number. -/
theorem betweenness_normalizes
    (s : Snapshot)
    (hindex : (Network.ofSnapshot s).size < 2 ^ 32) :
    ∃ raw b : Betweenness ℚ,
      accumulate .live (Network.ofSnapshot s).adjacency
          (Network.ofSnapshot s).linkCount = .ok raw ∧
      betweenness .live (Network.ofSnapshot s).adjacency
          (Network.ofSnapshot s).linkCount = .ok b ∧
      Betweenness.Normalizes (Network.ofSnapshot s).wholeGraph raw b := by
  have hends := Network.simpleEnds_ofSnapshot s
  obtain ⟨raw, hraw, hexact⟩ :=
    accumulate_isExact hends (Network.activeLinks_range (Network.ofSnapshot s))
  rw [Network.size_ends] at hraw
  rw [Network.adjacency_ofSnapshot]
  refine ⟨raw, { raw with node := normalize raw.node }, hraw, ?_,
    normalizes_normalize hindex hexact.size_node hexact.node_eq⟩
  rw [betweenness, Network.adjacencyOf, hraw]
  rfl

/-- In a row of three nodes the middle one is the centre of a star, and the only
broker. -/
theorem betweenness_normalizes_rowSnapshot :
    (Network.ofSnapshot rowSnapshot).size < 2 ^ 32 ∧
      ∃ b : Betweenness ℚ,
        betweenness .live (Network.ofSnapshot rowSnapshot).adjacency
            (Network.ofSnapshot rowSnapshot).linkCount = .ok b ∧
        (brokers b.node 0).map Prod.fst = [1] ∧
        ∃ v : Fin (Network.ofSnapshot rowSnapshot).size,
          v.val = 1 ∧
          (Network.ofSnapshot rowSnapshot).wholeGraph.IsStarCenter v := by
  have hsize : (Network.ofSnapshot rowSnapshot).size = 3 := by cbv
  have hcount : (Network.ofSnapshot rowSnapshot).linkCount = 2 := by cbv
  have hadjacency : (Network.ofSnapshot rowSnapshot).adjacency =
      ⟨#[#[(1, 0)], #[(0, 0), (2, 1)], #[(1, 1)]]⟩ := by cbv
  have hscores : betweenness .live (Network.ofSnapshot rowSnapshot).adjacency
        (Network.ofSnapshot rowSnapshot).linkCount =
      .ok (⟨#[0, 1, 0], #[4, 4]⟩ : Betweenness ℚ) := by
    rw [hadjacency, hcount]
    decide +kernel
  have hindex : (Network.ofSnapshot rowSnapshot).size < 2 ^ 32 :=
    hsize ▸ by decide
  obtain ⟨raw, b, -, hb, hnormal⟩ := betweenness_normalizes rowSnapshot hindex
  obtain rfl := Except.ok.inj (hscores.symm.trans hb)
  refine ⟨hindex, _, hb, by cbv, ⟨1, hsize ▸ by decide⟩, rfl, ?_⟩
  exact (hnormal.node_eq_one_iff hsize.ge _).mp rfl

end LinkAnalysis
