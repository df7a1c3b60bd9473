import LinkAnalysis.Proofs.Graph.Dependency

/-!
# Two cliques and a bridge

Two complete parts that one edge joins.  A walk from one part to the other has
to use this edge, so it carries two walks for each pair of nodes of different
parts.  Any other edge carries, besides the two walks that consist of it, those
between its end off the bridge and the other part only.  If each part has two
nodes at least, that is three quarters of what the bridge carries at most.
-/

namespace SimpleGraph

open scoped Classical

variable {V : Type*}

/-- The nodes of `left` are joined among themselves, so are the others, and `x`
in `left` is joined to `y` outside. -/
structure IsTwinCliques (G : SimpleGraph V) (left : Finset V)
    (x y : V) : Prop where
  mem_left : x ∈ left
  notMem_left : y ∉ left
  adj_iff : ∀ u v,
    G.Adj u v ↔ u ≠ v ∧ ((u ∈ left ↔ v ∈ left) ∨ s(u, v) = s(x, y))

namespace IsTwinCliques

variable {G : SimpleGraph V} {left : Finset V} {x y u v s t : V}

theorem symm [Fintype V] (hcliques : G.IsTwinCliques left x y) :
    G.IsTwinCliques leftᶜ y x where
  mem_left := Finset.mem_compl.mpr hcliques.notMem_left
  notMem_left := fun hx => Finset.mem_compl.mp hx hcliques.mem_left
  adj_iff := fun u v => by
    rw [hcliques.adj_iff, Finset.mem_compl, Finset.mem_compl, not_iff_not,
      Sym2.eq_swap (a := y)]

theorem adj (hcliques : G.IsTwinCliques left x y) : G.Adj x y :=
  (hcliques.adj_iff x y).mpr
    ⟨fun heq => hcliques.notMem_left (heq ▸ hcliques.mem_left), Or.inr rfl⟩

theorem adj_of_same
    (hcliques : G.IsTwinCliques left x y)
    (hne : u ≠ v)
    (hsame : u ∈ left ↔ v ∈ left) :
    G.Adj u v :=
  (hcliques.adj_iff u v).mpr ⟨hne, Or.inl hsame⟩

/-- The only step from one part to the other is the bridge. -/
theorem eq_of_adj
    (hcliques : G.IsTwinCliques left x y)
    (hadj : G.Adj u v)
    (hu : u ∈ left)
    (hv : v ∉ left) :
    u = x ∧ v = y := by
  rcases ((hcliques.adj_iff u v).mp hadj).2 with hsame | hedge
  · exact absurd (hsame.mp hu) hv
  · rcases Sym2.eq_iff.mp hedge with hends | ⟨rfl, rfl⟩
    · exact hends
    · exact absurd hu hcliques.notMem_left

/-! ## Distances -/

theorem reachable_of_same
    (hcliques : G.IsTwinCliques left x y)
    (hsame : u ∈ left ↔ v ∈ left) :
    G.Reachable u v := by
  by_cases heq : u = v
  · rw [heq]
  · exact (hcliques.adj_of_same heq hsame).reachable

theorem dist_le_one
    (hcliques : G.IsTwinCliques left x y)
    (hsame : u ∈ left ↔ v ∈ left) :
    G.dist u v ≤ 1 := by
  by_cases heq : u = v
  · rw [heq, dist_self]
    exact zero_le_one
  · exact (dist_eq_one_iff_adj.mpr (hcliques.adj_of_same heq hsame)).le

theorem reachable_across
    (hcliques : G.IsTwinCliques left x y)
    (hs : s ∈ left)
    (ht : t ∉ left) :
    G.Reachable s t := by
  have hleft : G.Reachable s x :=
    hcliques.reachable_of_same (iff_of_true hs hcliques.mem_left)
  have hright : G.Reachable y t :=
    hcliques.reachable_of_same (iff_of_false hcliques.notMem_left ht)
  exact hleft.trans (hcliques.adj.reachable.trans hright)

theorem preconnected (hcliques : G.IsTwinCliques left x y) :
    G.Preconnected := by
  intro u v
  by_cases hu : u ∈ left
  · by_cases hv : v ∈ left
    · exact hcliques.reachable_of_same (iff_of_true hu hv)
    · exact hcliques.reachable_across hu hv
  · by_cases hv : v ∈ left
    · exact (hcliques.reachable_across hv hu).symm
    · exact hcliques.reachable_of_same (iff_of_false hu hv)

/-- A walk from one part to the other is no shorter than the way over the
bridge. -/
theorem dist_add_le_length
    (hcliques : G.IsTwinCliques left x y)
    (p : G.Walk s t)
    (hs : s ∈ left)
    (ht : t ∉ left) :
    G.dist s x + 1 + G.dist y t ≤ p.length := by
  induction p with
  | nil => exact absurd hs ht
  | @cons s w t hadj p ih =>
      rw [Walk.length_cons]
      by_cases hw : w ∈ left
      · have hrest : G.dist w x + 1 + G.dist y t ≤ p.length := ih hw ht
        have hstep : G.dist s x ≤ G.dist s w + G.dist w x :=
          hadj.reachable.dist_triangle_left x
        rw [dist_eq_one_iff_adj.mpr hadj] at hstep
        omega
      · rcases hcliques.eq_of_adj hadj hs hw with ⟨rfl, rfl⟩
        have hrest : G.dist w t ≤ p.length := dist_le p
        rw [dist_self]
        omega

theorem dist_across
    (hcliques : G.IsTwinCliques left x y)
    (hs : s ∈ left)
    (ht : t ∉ left) :
    G.dist s t = G.dist s x + 1 + G.dist y t := by
  rcases (hcliques.reachable_across hs ht).exists_walk_length_eq_dist
    with ⟨p, hp⟩
  have hlower := hcliques.dist_add_le_length p hs ht
  have hfirst : G.dist s t ≤ G.dist s x + G.dist x t :=
    (hcliques.reachable_of_same (iff_of_true hs
        hcliques.mem_left)).dist_triangle_left t
  have hlast : G.dist x t ≤ G.dist x y + G.dist y t :=
    hcliques.adj.reachable.dist_triangle_left t
  rw [dist_eq_one_iff_adj.mpr hcliques.adj] at hlast
  omega

/-! ## Walks over the bridge, and walks that step inside a part -/

/-- Without the bridge the parts are what stays joined. -/
theorem reachable_deleteEdges_iff (hcliques : G.IsTwinCliques left x y) :
    (G.deleteEdges {s(x, y)}).Reachable u v ↔ (u ∈ left ↔ v ∈ left) := by
  constructor
  · intro hreach
    rcases hreach with ⟨p⟩
    induction p with
    | nil => exact Iff.rfl
    | @cons u w v hadj p ih =>
        rcases deleteEdges_adj.mp hadj with ⟨hadj, hkept⟩
        rcases ((hcliques.adj_iff u w).mp hadj).2 with hsame | hedge
        · exact hsame.trans ih
        · exact absurd hedge hkept
  · intro hsame
    by_cases heq : u = v
    · rw [heq]
    · refine Adj.reachable
        (deleteEdges_adj.mpr ⟨hcliques.adj_of_same heq hsame, fun hedge => ?_⟩)
      rcases Sym2.eq_iff.mp hedge with ⟨rfl, rfl⟩ | ⟨rfl, rfl⟩
      · exact hcliques.notMem_left (hsame.mp hcliques.mem_left)
      · exact hcliques.notMem_left (hsame.mpr hcliques.mem_left)

theorem mem_edges_of_across
    (hcliques : G.IsTwinCliques left x y)
    (p : G.Walk s t)
    (hs : s ∈ left)
    (ht : t ∉ left) :
    s(x, y) ∈ p.edges := by
  by_contra hnone
  have hreach := reachable_deleteEdges_iff_exists_walk.mpr ⟨p, hnone⟩
  exact ht ((hcliques.reachable_deleteEdges_iff.mp hreach).mp hs)

/-- A shortest walk that takes a step inside one part begins with the step or
ends with it. -/
theorem ends_of_step
    (hcliques : G.IsTwinCliques left x y)
    (hu : u ∈ left)
    (hv : v ∈ left)
    {p : G.Walk s u} {hadj : G.Adj u v} {q : G.Walk v t}
    (hshort : p.append (.cons hadj q) ∈ G.shortestWalks s t) :
    s = u ∧ (t = v ∨ t ∉ left ∧ v = x) ∨ s ∉ left ∧ u = x ∧ t = v := by
  rcases append_cons_mem_shortestWalks_iff.mp hshort with ⟨-, -, hsum⟩
  by_cases hs : s ∈ left
  · by_cases ht : t ∈ left
    · have hnear := hcliques.dist_le_one (iff_of_true hs ht)
      have hfirst : s = u := p.reachable.dist_eq_zero_iff.mp (by omega)
      have hlast : v = t := q.reachable.dist_eq_zero_iff.mp (by omega)
      exact Or.inl ⟨hfirst, Or.inl hlast.symm⟩
    · have hnear := hcliques.dist_le_one (iff_of_true hs hcliques.mem_left)
      rw [hcliques.dist_across hs ht, hcliques.dist_across hv ht] at hsum
      have hfirst : s = u := p.reachable.dist_eq_zero_iff.mp (by omega)
      have hlast : v = x :=
        (hcliques.reachable_of_same (iff_of_true hv
            hcliques.mem_left)).dist_eq_zero_iff.mp (by omega)
      exact Or.inl ⟨hfirst, Or.inr ⟨ht, hlast⟩⟩
  · by_cases ht : t ∈ left
    · have hnear := hcliques.dist_le_one (iff_of_true hcliques.mem_left ht)
      rw [G.dist_comm (u := s), G.dist_comm (u := s), hcliques.dist_across ht
        hs, hcliques.dist_across hu hs, G.dist_comm (u := t)] at hsum
      have hfirst : u = x :=
        (hcliques.reachable_of_same (iff_of_true hu
            hcliques.mem_left)).dist_eq_zero_iff.mp (by omega)
      have hlast : v = t := q.reachable.dist_eq_zero_iff.mp (by omega)
      exact Or.inr ⟨hs, hfirst, hlast.symm⟩
    · have hnear := hcliques.dist_le_one (iff_of_false hs ht)
      have hfirst : s = u := p.reachable.dist_eq_zero_iff.mp (by omega)
      exact absurd (hfirst ▸ hu) hs

/-! ## Betweenness -/

section Betweenness

variable [Fintype V]

theorem useShare_across
    (hcliques : G.IsTwinCliques left x y)
    (hs : s ∈ left)
    (ht : t ∉ left) :
    G.useShare s(x, y) s t = 1 :=
  useShare_eq_one (hcliques.reachable_across hs ht) fun p _ =>
    hcliques.mem_edges_of_across p hs ht

/-- The bridge carries all walks between the two parts. -/
theorem le_edgeBetweenness_bridge (hcliques : G.IsTwinCliques left x y) :
    2 * (left.card * leftᶜ.card : ℚ) ≤ G.edgeBetweenness s(x, y) := by
  have hdisjoint : Disjoint (left ×ˢ leftᶜ) (leftᶜ ×ˢ left) :=
    Finset.disjoint_product.mpr (Or.inl disjoint_compl_right)
  have hpairs : ∀ q ∈ (left ×ˢ leftᶜ).disjUnion (leftᶜ ×ˢ left) hdisjoint,
      G.useShare s(x, y) q.1 q.2 = 1 := by
    intro q hq
    rw [Finset.mem_disjUnion, Finset.mem_product, Finset.mem_product,
      Finset.mem_compl, Finset.mem_compl] at hq
    rcases hq with ⟨hs, ht⟩ | ⟨hs, ht⟩
    · exact hcliques.useShare_across hs ht
    · rw [Sym2.eq_swap]
      refine hcliques.symm.useShare_across (Finset.mem_compl.mpr hs)
        fun hmem => ?_
      exact Finset.mem_compl.mp hmem ht
  have hle := card_le_edgeBetweenness hpairs
  rw [Finset.card_disjUnion, Finset.card_product, Finset.card_product] at hle
  push_cast at hle
  linarith

/-- Only walks that end in `u` use an edge inside one part whose end `u` is off
the bridge, and their other ends are the other end of the edge and the other
part. -/
theorem mem_of_useShare_ne_zero
    (hcliques : G.IsTwinCliques left x y)
    (hu : u ∈ left)
    (hv : v ∈ left)
    (hoff : u ≠ x)
    (hused : G.useShare s(u, v) s t ≠ 0) :
    (s, t) ∈ {u} ×ˢ insert v leftᶜ ∪ insert v leftᶜ ×ˢ {u} := by
  rcases exists_mem_shortestWalksUsing hused with ⟨p, hshort, hedge⟩
  simp only [Finset.mem_union, Finset.mem_product, Finset.mem_singleton,
    Finset.mem_insert, Finset.mem_compl]
  rcases p.exists_append_cons_of_mem_edges hedge with ⟨q, hadj, r, rfl⟩
    | ⟨q, hadj, r, rfl⟩
  · rcases hcliques.ends_of_step hu hv hshort with ⟨hs, rfl | ⟨ht, -⟩⟩
      | ⟨-, hx, -⟩
    · exact Or.inl ⟨hs, Or.inl rfl⟩
    · exact Or.inl ⟨hs, Or.inr ht⟩
    · exact absurd hx hoff
  · rcases hcliques.ends_of_step hv hu hshort with ⟨hs, rfl | ⟨-, hx⟩⟩
      | ⟨hs, -, ht⟩
    · exact Or.inr ⟨Or.inl hs, rfl⟩
    · exact absurd hx hoff
    · exact Or.inr ⟨Or.inr hs, ht⟩

theorem edgeBetweenness_le_of_off
    (hcliques : G.IsTwinCliques left x y)
    (hu : u ∈ left)
    (hv : v ∈ left)
    (hoff : u ≠ x) :
    G.edgeBetweenness s(u, v) ≤ 2 * (1 + leftᶜ.card : ℚ) := by
  have hbound := edgeBetweenness_le_card fun s t =>
    hcliques.mem_of_useShare_ne_zero (s := s) (t := t) hu hv hoff
  have hcard :
      ({u} ×ˢ insert v leftᶜ ∪ insert v leftᶜ ×ˢ {u} : Finset (V × V)).card ≤
        2 * (1 + leftᶜ.card) := by
    have hinsert := Finset.card_insert_le v leftᶜ
    have hunion :=
      Finset.card_union_le ({u} ×ˢ insert v leftᶜ) (insert v leftᶜ ×ˢ {u})
    rw [Finset.card_product, Finset.card_product,
      Finset.card_singleton] at hunion
    omega
  exact hbound.trans (by exact_mod_cast hcard)

/-- One of the two ends of an edge inside a part is off the bridge. -/
theorem edgeBetweenness_le_of_mem
    (hcliques : G.IsTwinCliques left x y)
    (hu : u ∈ left)
    (hv : v ∈ left)
    (hne : u ≠ v) :
    G.edgeBetweenness s(u, v) ≤ 2 * (1 + leftᶜ.card : ℚ) := by
  by_cases hoff : u = x
  · rw [Sym2.eq_swap]
    exact hcliques.edgeBetweenness_le_of_off hv hu fun heq =>
      hne (hoff.trans heq.symm)
  · exact hcliques.edgeBetweenness_le_of_off hu hv hoff

theorem edgeBetweenness_le_of_subset
    (hcliques : G.IsTwinCliques left x y)
    (hu : u ∈ left)
    (hv : v ∈ left)
    (hne : u ≠ v)
    (hleft : 2 ≤ left.card)
    (hright : 2 ≤ leftᶜ.card) :
    G.edgeBetweenness s(u, v) ≤ 3 / 4 * G.edgeBetweenness s(x, y) := by
  have hedge := hcliques.edgeBetweenness_le_of_mem hu hv hne
  have hbridge := hcliques.le_edgeBetweenness_bridge
  have hleft' : (2 : ℚ) ≤ left.card := by exact_mod_cast hleft
  have hright' : (2 : ℚ) ≤ leftᶜ.card := by exact_mod_cast hright
  have hproduct : 2 * (leftᶜ.card : ℚ) ≤ left.card * leftᶜ.card :=
    mul_le_mul_of_nonneg_right hleft' (Nat.cast_nonneg _)
  linarith

/-- No edge carries nearly as much as the bridge. -/
theorem edgeBetweenness_le
    (hcliques : G.IsTwinCliques left x y)
    (hleft : 2 ≤ left.card)
    (hright : 2 ≤ leftᶜ.card)
    {e : Sym2 V}
    (he : e ∈ G.edgeSet)
    (hne : e ≠ s(x, y)) :
    G.edgeBetweenness e ≤ 3 / 4 * G.edgeBetweenness s(x, y) := by
  induction e using Sym2.ind with
  | _ u v =>
    rcases (hcliques.adj_iff u v).mp he with ⟨huv, hsame | hedge⟩
    · by_cases hu : u ∈ left
      · exact hcliques.edgeBetweenness_le_of_subset hu
          (hsame.mp hu) huv hleft hright
      · rw [Sym2.eq_swap (a := x)]
        refine hcliques.symm.edgeBetweenness_le_of_subset (Finset.mem_compl.mpr
          hu) (Finset.mem_compl.mpr fun hv => hu (hsame.mpr hv)) huv hright ?_
        rwa [compl_compl]
    · exact absurd hedge hne

end Betweenness

end IsTwinCliques

end SimpleGraph
