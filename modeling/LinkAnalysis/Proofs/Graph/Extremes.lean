import LinkAnalysis.Proofs.Graph.Dependency

/-!
# Extremes of betweenness

No more than all shortest walks between two nodes pass through a third one, so
the betweenness of a node is at most the number of ordered pairs of other nodes.
It is zero if the neighbours of the node are joined among themselves, for then
no shortest walk needs it.  It is as large as it can be if the node is the
centre of a star, for then all other nodes are joined through it only.
-/

namespace SimpleGraph

variable {V : Type*} {G : SimpleGraph V}

/-! ## Neighbours and stars -/

/-- Any two different neighbours of the node are joined. -/
def Clustered (G : SimpleGraph V) (v : V) : Prop :=
  ∀ u w, G.Adj v u → G.Adj v w → u ≠ w → G.Adj u w

/-- The node is joined to all others, and no two others are joined. -/
structure IsStarCenter (G : SimpleGraph V) (v : V) : Prop where
  adj : ∀ w, w ≠ v → G.Adj v w
  not_adj : ∀ u w, u ≠ v → w ≠ v → ¬ G.Adj u w

theorem not_clustered_iff {v : V} :
    ¬ G.Clustered v ↔ ∃ u w, G.Adj v u ∧ G.Adj v w ∧ u ≠ w ∧ ¬ G.Adj u w := by
  simp only [Clustered, not_forall, exists_prop]

/-- A walk steps off its first node to one that is a step nearer to its end. -/
theorem Reachable.exists_adj_dist_succ
    {v t : V}
    (hreachable : G.Reachable v t)
    (hne : v ≠ t) :
    ∃ w, G.Adj v w ∧ G.dist w t + 1 ≤ G.dist v t := by
  obtain ⟨p, hp⟩ := hreachable.exists_walk_length_eq_dist
  cases p with
  | nil => exact absurd rfl hne
  | @cons _ w _ hadj p =>
      rw [Walk.length_cons] at hp
      exact ⟨w, hadj, hp ▸ Nat.succ_le_succ (dist_le p)⟩

/-! ## Shares -/

theorem shortestWalksThrough_subset {s t v : V} :
    G.shortestWalksThrough v s t ⊆ G.shortestWalks s t :=
  fun _ hmem => hmem.1

theorem passShare_nonneg (v s t : V) : 0 ≤ G.passShare v s t := by
  unfold passShare
  positivity

section Shares

variable [Fintype V] {s t v : V}

theorem passShare_le_one (v s t : V) : G.passShare v s t ≤ 1 := by
  refine div_le_one_of_le₀ ?_ (Nat.cast_nonneg _)
  exact_mod_cast Set.ncard_le_ncard shortestWalksThrough_subset
    (finite_shortestWalks s t)

theorem passShare_eq_zero_iff :
    G.passShare v s t = 0 ↔ ∀ p ∈ G.shortestWalks s t, v ∉ p.support := by
  have hfinite := (finite_shortestWalks s t).subset
    (shortestWalksThrough_subset (G := G) (v := v))
  constructor
  · intro hzero p hp hv
    have hthrough : 0 < (G.shortestWalksThrough v s t).ncard :=
      (Set.ncard_pos hfinite).mpr ⟨p, hp, hv⟩
    have hcount : 0 < G.shortestWalkCount s t :=
      shortestWalkCount_pos p.reachable
    have hpos : 0 < G.passShare v s t :=
      div_pos (Nat.cast_pos.mpr hthrough) (Nat.cast_pos.mpr hcount)
    exact hpos.ne' hzero
  · intro hnone
    have hempty : G.shortestWalksThrough v s t = ∅ :=
      Set.eq_empty_iff_forall_notMem.mpr fun p hp => hnone p hp.1 hp.2
    rw [passShare, hempty, Set.ncard_empty, Nat.cast_zero, zero_div]

theorem passShare_eq_one_iff :
    G.passShare v s t = 1 ↔
      G.Reachable s t ∧ ∀ p ∈ G.shortestWalks s t, v ∈ p.support := by
  constructor
  · intro hone
    have hreach : G.Reachable s t := by
      by_contra hnot
      rw [passShare_of_not_reachable hnot] at hone
      exact zero_ne_one hone
    have hcount : (G.shortestWalkCount s t : ℚ) ≠ 0 :=
      Nat.cast_ne_zero.mpr (shortestWalkCount_pos hreach).ne'
    rw [passShare, div_eq_one_iff_eq hcount, Nat.cast_inj] at hone
    have hall :=
      Set.eq_of_subset_of_ncard_le (shortestWalksThrough_subset (G := G)
        (v := v)) hone.ge (finite_shortestWalks s t)
    exact ⟨hreach, fun p hp => (hall.ge hp).2⟩
  · rintro ⟨hreach, hall⟩
    have heq : G.shortestWalksThrough v s t = G.shortestWalks s t :=
      Set.Subset.antisymm shortestWalksThrough_subset fun p hp =>
        ⟨hp, hall p hp⟩
    rw [passShare, heq]
    exact div_self (Nat.cast_ne_zero.mpr (shortestWalkCount_pos hreach).ne')

end Shares

/-! ## Pairs of other nodes -/

section Pairs

open scoped Classical

variable [Fintype V]

/-- The ordered pairs of different nodes other than `v`. -/
noncomputable def otherPairs (v : V) : Finset (V × V) :=
  (Finset.univ.erase v).offDiag

theorem mem_otherPairs_iff {v : V} {q : V × V} :
    q ∈ otherPairs v ↔ q.1 ≠ v ∧ q.2 ≠ v ∧ q.1 ≠ q.2 := by
  simp [otherPairs, Finset.mem_offDiag]

theorem card_otherPairs (v : V) :
    (otherPairs v).card = (Fintype.card V - 1) * (Fintype.card V - 2) := by
  rw [otherPairs, Finset.offDiag_card,
    Finset.card_erase_of_mem (Finset.mem_univ v), Finset.card_univ,
    ← Nat.mul_sub_one, Nat.sub_sub]

theorem nodeBetweenness_eq_sum_otherPairs (v : V) :
    G.nodeBetweenness v = ∑ q ∈ otherPairs v, G.passShare v q.1 q.2 := by
  rw [nodeBetweenness, ← Finset.sum_product', ← Finset.sum_filter,
    Finset.univ_product_univ]
  refine Finset.sum_subset_zero_on_sdiff
    (fun q hq => ?_) (fun q hq => ?_) fun _ _ => rfl
  · obtain ⟨-, hne, hs, ht, -⟩ := Finset.mem_filter.mp hq
    exact mem_otherPairs_iff.mpr ⟨hs, ht, hne⟩
  · obtain ⟨hpair, hnot⟩ := Finset.mem_sdiff.mp hq
    obtain ⟨hs, ht, hne⟩ := mem_otherPairs_iff.mp hpair
    refine passShare_of_not_reachable fun hreach => hnot ?_
    exact Finset.mem_filter.mpr ⟨Finset.mem_univ q, hne, hs, ht, hreach⟩

/-! ## Bounds -/

theorem nodeBetweenness_nonneg (v : V) : 0 ≤ G.nodeBetweenness v := by
  rw [nodeBetweenness_eq_sum_otherPairs]
  exact Finset.sum_nonneg fun q _ => passShare_nonneg v q.1 q.2

theorem nodeBetweenness_le (v : V) :
    G.nodeBetweenness v ≤
      ((Fintype.card V - 1) * (Fintype.card V - 2) : ℕ) := by
  rw [nodeBetweenness_eq_sum_otherPairs, ← card_otherPairs v, ← nsmul_one]
  exact Finset.sum_le_card_nsmul _ _ _ fun q _ => passShare_le_one v q.1 q.2

/-! ## The least value -/

/-- Where all neighbours are joined, a walk through the node can be
shortened. -/
theorem Clustered.passShare_eq_zero
    {v : V}
    (hclustered : G.Clustered v)
    {s t : V}
    (hs : s ≠ v)
    (ht : t ≠ v) :
    G.passShare v s t = 0 := by
  rw [passShare_eq_zero_iff]
  intro p hp hv
  have hsplit := p.take_spec hv
  rw [← hsplit] at hp
  obtain ⟨-, -, hsum⟩ := append_mem_shortestWalks_iff.mp hp
  obtain ⟨x, hx, hnearS⟩ :=
    (p.takeUntil v hv).reachable.symm.exists_adj_dist_succ hs.symm
  obtain ⟨y, hy, hnearT⟩ :=
    (p.dropUntil v hv).reachable.exists_adj_dist_succ ht.symm
  have hacross : G.Reachable x y ∧ G.dist x y ≤ 1 := by
    by_cases hxy : x = y
    · rw [hxy, dist_self]
      exact ⟨Reachable.refl y, zero_le_one⟩
    · have hadj := hclustered x y hx hy hxy
      exact ⟨hadj.reachable, (dist_eq_one_iff_adj.mpr hadj).le⟩
  have hreach : G.Reachable s x :=
    (p.takeUntil v hv).reachable.trans hx.reachable
  have hfirst := hreach.dist_triangle_left t
  have hlast := hacross.1.dist_triangle_left t
  rw [dist_comm, dist_comm (u := v)] at hnearS
  omega

theorem nodeBetweenness_eq_zero_iff {v : V} :
    G.nodeBetweenness v = 0 ↔ G.Clustered v := by
  rw [nodeBetweenness_eq_sum_otherPairs,
    Finset.sum_eq_zero_iff_of_nonneg fun q _ => passShare_nonneg v q.1 q.2]
  constructor
  · intro hzero u w hu hw hne
    by_contra hnot
    have hshare := hzero (u, w) (mem_otherPairs_iff.mpr ⟨hu.ne', hw.ne', hne⟩)
    have hshort :
        (Walk.cons hu.symm (Walk.cons hw Walk.nil)) ∈ G.shortestWalks u w := by
      have hreach : G.Reachable u w := hu.symm.reachable.trans hw.reachable
      have hlower := hreach.one_lt_dist_of_ne_of_not_adj hne hnot
      have hupper := dist_le (Walk.cons hu.symm (Walk.cons hw Walk.nil))
      exact le_antisymm hlower hupper
    exact passShare_eq_zero_iff.mp hshare _ hshort (by simp)
  · intro hclustered q hq
    obtain ⟨hs, ht, -⟩ := mem_otherPairs_iff.mp hq
    exact hclustered.passShare_eq_zero hs ht

/-! ## The greatest value -/

theorem nodeBetweenness_eq_max_iff_forall {v : V} :
    G.nodeBetweenness v = ((Fintype.card V - 1) * (Fintype.card V - 2) : ℕ) ↔
      ∀ q ∈ otherPairs v, G.passShare v q.1 q.2 = 1 := by
  have hcard : (((Fintype.card V - 1) * (Fintype.card V - 2) : ℕ) : ℚ) =
      ∑ _q ∈ otherPairs v, (1 : ℚ) := by
    rw [Finset.sum_const, card_otherPairs, nsmul_one]
  rw [nodeBetweenness_eq_sum_otherPairs, hcard]
  exact Finset.sum_eq_sum_iff_of_le fun q _ => passShare_le_one v q.1 q.2

/-- In a star a walk between two others begins with a step to the centre. -/
theorem IsStarCenter.passShare_eq_one
    {v : V}
    (hcenter : G.IsStarCenter v)
    {s t : V}
    (hs : s ≠ v)
    (ht : t ≠ v)
    (hne : s ≠ t) :
    G.passShare v s t = 1 := by
  rw [passShare_eq_one_iff]
  refine ⟨(hcenter.adj s hs).symm.reachable.trans (hcenter.adj t ht).reachable,
    fun p _ => ?_⟩
  cases p with
  | nil => exact absurd rfl hne
  | @cons _ x _ hadj p =>
      obtain rfl : x = v := by
        by_contra hx
        exact hcenter.not_adj s x hs hx hadj
      simp

/-- If all shortest walks between other nodes pass a node, then that node is the
centre of a star: a walk from any node to a third one has to step to the centre
first. -/
theorem isStarCenter_of_forall_passShare
    {v : V}
    (hcard : 3 ≤ Fintype.card V)
    (hshare : ∀ q ∈ otherPairs v, G.passShare v q.1 q.2 = 1) :
    G.IsStarCenter v := by
  have hapart : ∀ u w, u ≠ v → w ≠ v → ¬ G.Adj u w := by
    intro u w hu hw hadj
    obtain ⟨-, hall⟩ :=
      passShare_eq_one_iff.mp
        (hshare (u, w) (mem_otherPairs_iff.mpr ⟨hu, hw, hadj.ne⟩))
    have hshort : hadj.toWalk ∈ G.shortestWalks u w :=
      (dist_eq_one_iff_adj.mpr hadj).symm
    have hmem := hall _ hshort
    simp [hu.symm, hw.symm] at hmem
  refine ⟨fun w hw => ?_, hapart⟩
  have hpair : ({v, w} : Finset V).card < (Finset.univ : Finset V).card :=
    Finset.card_le_two.trans_lt hcard
  obtain ⟨t, -, ht⟩ := Finset.exists_mem_notMem_of_card_lt_card hpair
  simp only [Finset.mem_insert, Finset.mem_singleton, not_or] at ht
  obtain ⟨hreach, -⟩ :=
    passShare_eq_one_iff.mp
      (hshare (w, t) (mem_otherPairs_iff.mpr ⟨hw, ht.1, Ne.symm ht.2⟩))
  obtain ⟨x, hadj, -⟩ := hreach.exists_adj_dist_succ (Ne.symm ht.2)
  obtain rfl : x = v := by
    by_contra hx
    exact hapart w x hw hx hadj
  exact hadj.symm

theorem nodeBetweenness_eq_max_iff {v : V} (hcard : 3 ≤ Fintype.card V) :
    G.nodeBetweenness v = ((Fintype.card V - 1) * (Fintype.card V - 2) : ℕ) ↔
      G.IsStarCenter v := by
  rw [nodeBetweenness_eq_max_iff_forall]
  constructor
  · exact isStarCenter_of_forall_passShare hcard
  · intro hcenter q hq
    obtain ⟨hs, ht, hne⟩ := mem_otherPairs_iff.mp hq
    exact hcenter.passShare_eq_one hs ht hne

end Pairs

end SimpleGraph
