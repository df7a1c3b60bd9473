import LinkAnalysis.Proofs.Network.Courses

/-!
# Links listed at their ends

An adjacency may be built over any links: several may join the same nodes, and a
link may join a node to itself.  Every active link is listed once at each of its
ends, and so a link from a node to itself is listed there twice.  The lists are
sorted, so they tell which links are active and nothing else: not in which order
the links were taken.
-/

namespace LinkAnalysis

namespace Adjacency

/-- The lists of an adjacency over `n` nodes are those of the active links. -/
structure ListsLinks (n : Nat) (ends : Array (Nat × Nat)) (active : List Nat)
    (adj : Adjacency) : Prop where
  size_eq : adj.size = n
  ascending : ∀ v, (adj.neighbors v).toList.Pairwise fun x y =>
    x.1 < y.1 ∨ x.1 = y.1 ∧ x.2 ≤ y.2
  count_of_ne : ∀ v w p, v ≠ w → p ∈ active → Joins ends p v w →
    (adj.neighbors v).toList.count (w, p) = 1
  count_self : ∀ v p,
    p ∈ active → Joins ends p v v → (adj.neighbors v).toList.count (v, p) = 2
  joins_of_mem :
    ∀ v w p, (w, p) ∈ adj.neighbors v → p ∈ active ∧ Joins ends p v w
  mem_comm : ∀ v w p, (w, p) ∈ adj.neighbors v ↔ (v, p) ∈ adj.neighbors w
  sum_degree : (adj.nodes.map adj.degree).sum = 2 * active.length

variable {n : Nat} {ends : Array (Nat × Nat)} {active : List Nat}

/-! ## Any order of the links -/

theorem neighborLe_antisymm
    {x y : Nat × Nat}
    (hxy : neighborLe x y = true)
    (hyx : neighborLe y x = true) :
    x = y := by
  rw [neighborLe_iff] at hxy hyx
  apply Prod.ext <;> omega

theorem ext_neighbors
    {adj adj' : Adjacency}
    (hsize : adj.size = adj'.size)
    (hsame : ∀ v < adj.size, adj.neighbors v = adj'.neighbors v) :
    adj = adj' := by
  have hrows : adj.rows = adj'.rows := by
    apply Array.ext hsize
    intro v hv hv'
    have hneighbors := hsame v hv
    simpa [neighbors, hv, hv'] using hneighbors
  cases adj
  cases adj'
  exact congrArg mk hrows

/-- The adjacency does not tell in which order the links were taken. -/
theorem ofEnds_perm
    (n : Nat) (ends : Array (Nat × Nat)) {active active' : List Nat}
    (hactive : active.Perm active') :
    ofEnds n ends active = ofEnds n ends active' := by
  apply ext_neighbors
  · rw [size_ofEnds, size_ofEnds]
  · intro v hv
    rw [size_ofEnds] at hv
    have hperm : ((ofEnds n ends active).neighbors v).toList.Perm
        ((ofEnds n ends active').neighbors v).toList :=
      ((neighbors_ofEnds_perm ends active hv).trans (hactive.flatMap_right
          _)).trans (neighbors_ofEnds_perm ends active' hv).symm
    have hlists :=
      hperm.eq_of_pairwise (fun x y _ _ =>
        neighborLe_antisymm) (neighbors_ofEnds_pairwise n ends active v)
        (neighbors_ofEnds_pairwise n ends active' v)
    exact Array.toList_inj.mp hlists

/-! ## Counting ends -/

theorem count_endsAt_self {v p : Nat} (hjoins : Joins ends p v v) :
    (endsAt ends v p).count (v, p) = 2 := by
  unfold endsAt
  rw [hjoins.elim id id]
  simp

theorem sum_length_endsAt
    {p a b : Nat}
    (hget : ends[p]? = some (a, b))
    (ha : a < n)
    (hb : b < n) :
    ∑ v ∈ Finset.range n, (endsAt ends v p).length = 2 := by
  have hone : ∀ v,
      (endsAt ends v p).length =
        (if b = v then 1 else 0) + if a = v then 1 else 0 := by
    intro v
    unfold endsAt
    rw [hget]
    by_cases ha : a = v <;> by_cases hb : b = v <;> simp [ha, hb]
  simp only [hone, Finset.sum_add_distrib, Finset.sum_ite_eq, Finset.mem_range,
    if_pos ha, if_pos hb]

theorem sum_length_flatMap_endsAt (hrange : InRange n ends active) :
    ∑ v ∈ Finset.range n, (active.flatMap (endsAt ends v)).length =
      2 * active.length := by
  induction active with
  | nil => simp
  | cons p more ih =>
      have hmore : InRange n ends more :=
        fun q hq => hrange q (List.mem_cons_of_mem _ hq)
      rcases hrange p List.mem_cons_self with ⟨a, b, hget, ha, hb⟩
      simp only [List.flatMap_cons, List.length_append, Finset.sum_add_distrib,
        ih hmore, sum_length_endsAt hget ha hb, List.length_cons]
      omega

/-- Every active link has two ends. -/
theorem sum_degree_ofEnds (hrange : InRange n ends active) :
    ((ofEnds n ends active).nodes.map (ofEnds n ends active).degree).sum =
      2 * active.length := by
  have hdegree : ∀ v ∈ Finset.range n, (ofEnds n ends active).degree v =
      (active.flatMap (endsAt ends v)).length := by
    intro v hv
    rw [degree, ← Array.length_toList,
      (neighbors_ofEnds_perm ends active (Finset.mem_range.mp hv)).length_eq]
  calc ((ofEnds n ends active).nodes.map (ofEnds n ends active).degree).sum
      = ∑ v ∈ Finset.range n, (ofEnds n ends active).degree v := by
        rw [nodes, size_ofEnds]
        rfl
    _ = ∑ v ∈ Finset.range n, (active.flatMap (endsAt ends v)).length :=
        Finset.sum_congr rfl hdegree
    _ = 2 * active.length := sum_length_flatMap_endsAt hrange

/-! ## All lists -/

/-- An adjacency is determined by the set of its active links. -/
theorem ofEnds_listsLinks
    (hrange : InRange n ends active)
    (hnodup : active.Nodup) :
    (ofEnds n ends active).ListsLinks n ends active ∧
      ∀ active',
        active'.Perm active → ofEnds n ends active' = ofEnds n ends active := by
  have hone : ∀ p ∈ active, active.count p = 1 :=
    fun p hp => List.count_eq_one_of_mem hnodup hp
  have hlt : ∀ v w p, p ∈ active → Joins ends p v w → v < n := by
    intro v w p hp hjoins
    have hmem : (v, p) ∈ (ofEnds n ends active).neighbors w :=
      (mem_neighbors_ofEnds_iff_joins hrange).mpr ⟨hp, hjoins⟩
    exact lt_of_mem_neighbors_ofEnds hrange hmem
  constructor
  · exact
      { size_eq := size_ofEnds n ends active
        ascending := fun v => by
          simpa only [neighborLe_iff]
            using neighbors_ofEnds_pairwise n ends active v
        count_of_ne := fun v w p hne hp hjoins => by
          rw [count_neighbors_ofEnds ends active (hlt v w p hp hjoins),
            hone p hp, one_mul, count_endsAt_of_ne hne hjoins]
        count_self := fun v p hp hjoins => by
          rw [count_neighbors_ofEnds ends active (hlt v v p hp hjoins),
            hone p hp, one_mul, count_endsAt_self hjoins]
        joins_of_mem := fun v w p hmem => by
          have hjoins := (mem_neighbors_ofEnds_iff_joins hrange).mp hmem
          exact ⟨hjoins.1, hjoins.2.symm⟩
        mem_comm := fun v w p =>
          ⟨mem_neighbors_ofEnds_comm hrange, mem_neighbors_ofEnds_comm hrange⟩
        sum_degree := sum_degree_ofEnds hrange }
  · exact fun active' hperm => ofEnds_perm n ends hperm

/-- Two parallel links, a link from a node to itself, and one more link. -/
def knottedEnds : Array (Nat × Nat) := #[(0, 1), (1, 1), (1, 0), (2, 0)]

theorem ofEnds_listsLinks_knottedEnds :
    InRange 3 knottedEnds [3, 1, 0, 2] ∧
      [3, 1, 0, 2].Nodup ∧
      ((ofEnds 3 knottedEnds [3, 1, 0, 2]).neighbors 1).toList.count (1, 1) =
        2 ∧
      ((ofEnds 3 knottedEnds [3, 1, 0, 2]).neighbors 1).toList.count (0, 2) =
        1 ∧
      ofEnds 3 knottedEnds [0, 1, 2, 3] =
        ofEnds 3 knottedEnds [3, 1, 0, 2] := by
  have hrange : InRange 3 knottedEnds [3, 1, 0, 2] := inRange_iff.mp (by decide)
  have hnodup : [3, 1, 0, 2].Nodup := by decide
  rcases ofEnds_listsLinks hrange hnodup with ⟨hlists, horder⟩
  have hself : Joins knottedEnds 1 1 1 := Or.inl rfl
  have hparallel : Joins knottedEnds 2 1 0 := Or.inl rfl
  exact ⟨hrange, hnodup, hlists.count_self 1 1 (by decide) hself,
    hlists.count_of_ne 1 0 2 (by decide) (by decide) hparallel,
    horder [0, 1, 2, 3] (by decide)⟩

end Adjacency

end LinkAnalysis
