import LinkAnalysis.Proofs.Graph.ShortestWalks

/-!
# Dependencies

The dependency of a source on a node sums, over all other nodes, the shares of
the shortest walks that pass through the node.  It satisfies a recursion along
the edges that climb, seen from the source: what passes through a node is what
its climbing edges carry, and an edge carries its part of the far end's own
walks and of what passes through the far end.  Betweenness sums dependencies
over all sources.
-/

namespace SimpleGraph

open scoped Classical

variable {V : Type*} {G : SimpleGraph V}

/-! ## Shares -/

theorem passShare_eq (v s t : V) :
    G.passShare v s t =
      if G.dist s v + G.dist v t = G.dist s t then
        (G.shortestWalkCount s v * G.shortestWalkCount v t /
          G.shortestWalkCount s t : ℚ)
      else 0 := by
  rw [passShare, ncard_shortestWalksThrough]
  split <;> simp

theorem Climbs.useShare_eq
    {s v w : V}
    (hclimbs : G.Climbs s v w)
    (t : V) :
    G.useShare s(v, w) s t =
      if G.dist s w + G.dist w t = G.dist s t then
        (G.shortestWalkCount s v * G.shortestWalkCount w t /
          G.shortestWalkCount s t : ℚ)
      else 0 := by
  rw [useShare, ncard_shortestWalksUsing hclimbs.adj hclimbs.dist_eq]
  split <;> simp

theorem passShare_of_not_reachable
    {v s t : V}
    (hunreachable : ¬ G.Reachable s t) :
    G.passShare v s t = 0 := by
  simp [passShare, shortestWalkCount_eq_zero_of_not_reachable hunreachable]

theorem useShare_of_not_reachable
    {e : Sym2 V} {s t : V}
    (hunreachable : ¬ G.Reachable s t) :
    G.useShare e s t = 0 := by
  simp [useShare, shortestWalkCount_eq_zero_of_not_reachable hunreachable]

theorem useShare_nonneg (e : Sym2 V) (s t : V) : 0 ≤ G.useShare e s t := by
  unfold useShare
  positivity

theorem passShare_source {v s : V} (hne : s ≠ v) : G.passShare v s s = 0 := by
  by_cases hreach : G.Reachable s v
  · have hpos := hreach.pos_dist_of_ne hne
    rw [passShare_eq, if_neg (by rw [dist_self]; omega)]
  · rw [passShare_eq, shortestWalkCount_eq_zero_of_not_reachable hreach]
    simp

theorem shortestWalksUsing_subset {e : Sym2 V} {s t : V} :
    G.shortestWalksUsing e s t ⊆ G.shortestWalks s t :=
  fun _ hmem => hmem.1

theorem exists_mem_shortestWalksUsing
    {e : Sym2 V} {s t : V}
    (hshare : G.useShare e s t ≠ 0) :
    ∃ p, p ∈ G.shortestWalksUsing e s t := by
  by_contra hnone
  rw [useShare, Set.not_nonempty_iff_eq_empty.mp hnone] at hshare
  simp at hshare

theorem useShare_source (e : Sym2 V) (s : V) : G.useShare e s s = 0 := by
  by_contra hne
  rcases exists_mem_shortestWalksUsing hne with ⟨p, hshort, he⟩
  rw [mem_shortestWalks, dist_self, Walk.length_eq_zero_iff,
    ← Walk.eq_nil_iff_nil] at hshort
  subst p
  simp at he

theorem useShare_of_level
    {s v w : V}
    (hup : G.dist s w ≠ G.dist s v + 1)
    (hdown : G.dist s v ≠ G.dist s w + 1)
    (t : V) :
    G.useShare s(v, w) s t = 0 := by
  by_contra hne
  rcases exists_mem_shortestWalksUsing hne with ⟨p, hp⟩
  rcases dist_of_mem_shortestWalksUsing hp with hdist | hdist
  · exact hup hdist
  · exact hdown hdist

/-! ## Dependencies and betweenness -/

variable [Fintype V]

theorem useShare_le_one (e : Sym2 V) (s t : V) : G.useShare e s t ≤ 1 := by
  refine div_le_one_of_le₀ ?_ (Nat.cast_nonneg _)
  exact_mod_cast Set.ncard_le_ncard shortestWalksUsing_subset
    (finite_shortestWalks s t)

variable (G) in
/-- The sum, over all nodes other than `v`, of the shares of the shortest walks
from `s` that pass through `v`. -/
noncomputable def dependency (s v : V) : ℚ := ∑ t with t ≠ v, G.passShare v s t

variable (G) in
/-- The betweenness of a node: over all ordered pairs of other nodes that are
joined, the share of the shortest walks that pass through the node. -/
noncomputable def nodeBetweenness (v : V) : ℚ :=
  ∑ s, ∑ t,
    if s ≠ t ∧ s ≠ v ∧ t ≠ v ∧ G.Reachable s t then G.passShare v s t else 0

variable (G) in
/-- The betweenness of an edge: over all ordered pairs of nodes that are joined,
the share of the shortest walks that use the edge. -/
noncomputable def edgeBetweenness (e : Sym2 V) : ℚ :=
  ∑ s, ∑ t, if s ≠ t ∧ G.Reachable s t then G.useShare e s t else 0

variable (G) in
/-- What a climbing edge carries from `s`: of the walks that end at `w`, and of
those that pass through it, the share that comes from `v`. -/
noncomputable def climbingShare (s v w : V) : ℚ :=
  G.shortestWalkCount s v / G.shortestWalkCount s w * (1 + G.dependency s w)

theorem passShare_self {s w : V} (hreachable : G.Reachable s w) :
    G.passShare w s w = 1 := by
  have hpos : (G.shortestWalkCount s w : ℚ) ≠ 0 := by
    exact_mod_cast (shortestWalkCount_pos hreachable).ne'
  rw [passShare_eq, if_pos (by simp), shortestWalkCount_self]
  simp [hpos]

/-! ## The recursion -/

theorem Climbs.sum_useShare {s v w : V} (hclimbs : G.Climbs s v w) :
    ∑ t, G.useShare s(v, w) s t = G.climbingShare s v w := by
  have hreach : G.Reachable s w :=
    Reachable.of_dist_ne_zero (by rw [hclimbs.dist_eq]; omega)
  have hpos : (G.shortestWalkCount s w : ℚ) ≠ 0 := by
    exact_mod_cast (shortestWalkCount_pos hreach).ne'
  have hshare : ∀ t, G.useShare s(v, w) s t =
      (G.shortestWalkCount s v / G.shortestWalkCount s w : ℚ) * G.passShare w
        s t := by
    intro t
    rw [hclimbs.useShare_eq, passShare_eq]
    split
    · field_simp
    · simp
  have hsplit : ∑ t, G.passShare w s t = 1 + G.dependency s w := by
    rw [dependency, ← Finset.sum_filter_add_sum_filter_not Finset.univ
      (fun t => t = w), Finset.filter_eq' Finset.univ w,
      if_pos (Finset.mem_univ w), Finset.sum_singleton, passShare_self hreach]
  rw [Finset.sum_congr rfl fun t _ => hshare t, ← Finset.mul_sum, hsplit,
    climbingShare]

/-- What passes through a node on the way to another one leaves it along
climbing edges. -/
theorem passShare_eq_sum_useShare
    {s v : V}
    (hreach : G.Reachable s v)
    {t : V}
    (hne : t ≠ v) :
    G.passShare v s t = ∑ w with G.Climbs s v w, G.useShare s(v, w) s t := by
  have hshare : ∀ w ∈ Finset.univ.filter fun w => G.Climbs s v w,
      G.useShare s(v, w) s t =
        if G.dist s w + G.dist w t = G.dist s t then
          (G.shortestWalkCount s v * G.shortestWalkCount w t /
            G.shortestWalkCount s t : ℚ)
        else 0 :=
    fun w hw => (Finset.mem_filter.mp hw).2.useShare_eq t
  rw [Finset.sum_congr rfl hshare, passShare_eq]
  by_cases hreachT : G.Reachable v t
  · have htriangle := hreach.dist_triangle_left t
    by_cases hsum : G.dist s v + G.dist v t = G.dist s t
    · have hfilter : (Finset.univ.filter fun w => G.Adj v w ∧
          G.dist w t + 1 = G.dist v t) =
          (Finset.univ.filter fun w => G.Climbs s v w).filter fun w =>
          G.dist s w + G.dist w t = G.dist s t := by
        ext w
        simp only [Finset.mem_filter, Finset.mem_univ, true_and]
        constructor
        · rintro ⟨hadj, hnear⟩
          have hup := hadj.reachable.dist_triangle_right s
          have hacross := (hreach.trans hadj.reachable).dist_triangle_left t
          rw [dist_eq_one_iff_adj.mpr hadj] at hup
          exact ⟨⟨hadj, by omega⟩, by omega⟩
        · rintro ⟨⟨hadj, hclimb⟩, hsumW⟩
          exact ⟨hadj, by omega⟩
      rw [if_pos hsum, shortestWalkCount_eq_sum hne.symm hreachT, hfilter,
        Finset.sum_filter, Nat.cast_sum, Finset.mul_sum, Finset.sum_div]
      apply Finset.sum_congr rfl
      intro w _
      split <;> simp
    · rw [if_neg hsum, Finset.sum_eq_zero]
      intro w hw
      obtain ⟨hadj, hclimb⟩ := (Finset.mem_filter.mp hw).2
      have hnear := hadj.reachable.dist_triangle_left t
      rw [dist_eq_one_iff_adj.mpr hadj] at hnear
      rw [if_neg (by omega)]
  · have hunreached : ¬ G.Reachable s t :=
      fun hreachable => hreachT (hreach.symm.trans hreachable)
    simp [shortestWalkCount_eq_zero_of_not_reachable hunreached]

/-- The recursion of dependencies along climbing edges.  An edge carries nothing
to the node that it leads to, so that all nodes may be summed over. -/
theorem dependency_eq_sum {s v : V} (hreach : G.Reachable s v) :
    G.dependency s v = ∑ w with G.Climbs s v w, G.climbingShare s v w := by
  have hpass : ∀ t ∈ Finset.univ.filter fun t => t ≠ v, G.passShare v s t =
      ∑ w with G.Climbs s v w, G.useShare s(v, w) s t :=
    fun t ht => passShare_eq_sum_useShare hreach (Finset.mem_filter.mp ht).2
  rw [dependency, Finset.sum_congr rfl hpass, Finset.sum_comm]
  apply Finset.sum_congr rfl
  intro w hw
  have hclimbs := (Finset.mem_filter.mp hw).2
  rw [← hclimbs.sum_useShare]
  apply Finset.sum_subset (Finset.filter_subset _ _)
  intro t _ ht
  obtain rfl : t = v := by simpa using ht
  have hclimb := hclimbs.dist_eq
  rw [hclimbs.useShare_eq, if_neg (by omega)]

/-! ## Betweenness from dependencies -/

theorem dependency_of_not_reachable
    {s v : V}
    (hunreachable : ¬ G.Reachable s v) :
    G.dependency s v = 0 := by
  apply Finset.sum_eq_zero
  intro t _
  rw [passShare_eq, shortestWalkCount_eq_zero_of_not_reachable hunreachable]
  simp

theorem nodeBetweenness_eq_sum_dependency (v : V) :
    G.nodeBetweenness v = ∑ s with s ≠ v, G.dependency s v := by
  rw [nodeBetweenness, Finset.sum_filter]
  apply Finset.sum_congr rfl
  intro s _
  by_cases hs : s = v
  · simp [hs]
  · rw [if_pos hs, dependency, Finset.sum_filter]
    apply Finset.sum_congr rfl
    intro t _
    by_cases hst : s = t
    · subst t
      simp [passShare_source hs]
    · by_cases hreach : G.Reachable s t
      · simp [hst, hs, hreach]
      · simp [passShare_of_not_reachable hreach]

theorem edgeBetweenness_eq_sum_useShare (e : Sym2 V) :
    G.edgeBetweenness e = ∑ s, ∑ t, G.useShare e s t := by
  refine Finset.sum_congr rfl fun s _ => Finset.sum_congr rfl fun t _ => ?_
  by_cases hst : s = t
  · subst t
    simp [useShare_source]
  · by_cases hreach : G.Reachable s t
    · simp [hst, hreach]
    · simp [useShare_of_not_reachable hreach]

theorem Climbs.sum_eq
    [DecidableEq V] {s v w : V}
    (hclimbs : G.Climbs s v w)
    (f : V → V → ℚ) :
    ∑ w', ∑ v' with G.Climbs s v' w',
        (if s(v', w') = s(v, w) then f v' w' else 0) =
      f v w := by
  rw [Finset.sum_eq_single w, Finset.sum_eq_single v, if_pos rfl]
  · intro v' _ hne
    apply if_neg
    intro heq
    rcases Sym2.eq_iff.mp heq with ⟨hv, -⟩ | ⟨hv, hw⟩
    · exact hne hv
    · exact hne (hv.trans hw)
  · intro hmem
    exact absurd (Finset.mem_filter.mpr ⟨Finset.mem_univ v, hclimbs⟩) hmem
  · intro w' _ hne
    refine Finset.sum_eq_zero fun v' hv' => if_neg fun heq => ?_
    have hback := (Finset.mem_filter.mp hv').2.dist_eq
    have hforth := hclimbs.dist_eq
    rcases Sym2.eq_iff.mp heq with ⟨-, hw⟩ | ⟨rfl, rfl⟩
    · exact hne hw
    · omega
  · simp

theorem sum_useShare_eq_sum_climbingShare
    [DecidableEq V] {a b : V}
    (hadj : G.Adj a b)
    (s : V) :
    ∑ t, G.useShare s(a, b) s t =
      ∑ w, ∑ v with G.Climbs s v w,
        if s(v, w) = s(a, b) then G.climbingShare s v w else 0 := by
  by_cases hup : G.dist s b = G.dist s a + 1
  · have hclimbs : G.Climbs s a b := ⟨hadj, hup⟩
    rw [hclimbs.sum_eq, hclimbs.sum_useShare]
  · by_cases hdown : G.dist s a = G.dist s b + 1
    · have hclimbs : G.Climbs s b a := ⟨hadj.symm, hdown⟩
      rw [Sym2.eq_swap, hclimbs.sum_eq, hclimbs.sum_useShare]
    · rw [Finset.sum_eq_zero fun t _ => useShare_of_level hup hdown t]
      refine (Finset.sum_eq_zero fun w _ => Finset.sum_eq_zero fun v hv =>
        if_neg fun heq => ?_).symm
      have hclimb := (Finset.mem_filter.mp hv).2.dist_eq
      rcases Sym2.eq_iff.mp heq with ⟨rfl, rfl⟩ | ⟨rfl, rfl⟩
      · exact hup hclimb
      · exact hdown hclimb

theorem useShare_eq_one
    {e : Sym2 V} {s t : V}
    (hreach : G.Reachable s t)
    (hall : ∀ p ∈ G.shortestWalks s t, e ∈ p.edges) :
    G.useShare e s t = 1 := by
  have heq : G.shortestWalksUsing e s t = G.shortestWalks s t :=
    Set.Subset.antisymm shortestWalksUsing_subset fun p hp => ⟨hp, hall p hp⟩
  have hpos : (G.shortestWalkCount s t : ℚ) ≠ 0 := by
    exact_mod_cast (shortestWalkCount_pos hreach).ne'
  rw [useShare, heq]
  exact div_self hpos

theorem useShare_of_adj {a b : V} (hadj : G.Adj a b) :
    G.useShare s(a, b) a b = 1 := by
  refine useShare_eq_one hadj.reachable fun p hp => ?_
  rw [mem_shortestWalks, dist_eq_one_iff_adj.mpr hadj] at hp
  cases p with
  | nil => simp at hp
  | cons hstep q =>
      cases q with
      | nil => simp
      | cons hnext r => simp at hp

/-- An edge that all shortest walks between the nodes of some pairs need carries
as many. -/
theorem card_le_edgeBetweenness
    {e : Sym2 V} {pairs : Finset (V × V)}
    (hshare : ∀ q ∈ pairs, G.useShare e q.1 q.2 = 1) :
    (pairs.card : ℚ) ≤ G.edgeBetweenness e := by
  rw [edgeBetweenness_eq_sum_useShare, ← Finset.sum_product',
    Finset.univ_product_univ]
  calc (pairs.card : ℚ) = ∑ q ∈ pairs, G.useShare e q.1 q.2 := by
        rw [Finset.sum_congr rfl hshare, Finset.sum_const, nsmul_one]
    _ ≤ ∑ q : V × V, G.useShare e q.1 q.2 :=
        Finset.sum_le_sum_of_subset_of_nonneg (Finset.subset_univ pairs)
          fun q _ _ => useShare_nonneg e q.1 q.2

/-- An edge carries no more walks than there are pairs that use it at all. -/
theorem edgeBetweenness_le_card
    {e : Sym2 V} {pairs : Finset (V × V)}
    (hpairs : ∀ s t, G.useShare e s t ≠ 0 → (s, t) ∈ pairs) :
    G.edgeBetweenness e ≤ pairs.card := by
  rw [edgeBetweenness_eq_sum_useShare, ← Finset.sum_product',
    Finset.univ_product_univ]
  calc
    ∑ q : V × V, G.useShare e q.1 q.2 = ∑ q ∈ pairs, G.useShare e q.1 q.2 := by
        refine (Finset.sum_subset (Finset.subset_univ pairs)
          fun q _ hq => ?_).symm
        by_contra hne
        exact hq (hpairs q.1 q.2 hne)
    _ ≤ pairs.card • (1 : ℚ) :=
        Finset.sum_le_card_nsmul _ _ _ fun q _ => useShare_le_one e q.1 q.2
    _ = pairs.card := nsmul_one _

/-- Every edge carries at least the two walks that consist of it. -/
theorem two_le_edgeBetweenness {a b : V} (hadj : G.Adj a b) :
    2 ≤ G.edgeBetweenness s(a, b) := by
  have hpairs : ∀ q ∈ ({(a, b), (b, a)} : Finset (V × V)),
      G.useShare s(a, b) q.1 q.2 = 1 := by
    intro q hq
    rcases Finset.mem_insert.mp hq with rfl | hq
    · exact useShare_of_adj hadj
    · rw [Finset.mem_singleton.mp hq, Sym2.eq_swap]
      exact useShare_of_adj hadj.symm
  have hle := card_le_edgeBetweenness hpairs
  rwa [Finset.card_pair fun heq => hadj.ne (congrArg Prod.fst heq),
    Nat.cast_two] at hle

end SimpleGraph
