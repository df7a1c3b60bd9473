import LinkAnalysis.Network.Basic
import LinkAnalysis.Proofs.Graph.ShortestWalks
import LinkAnalysis.Proofs.Network.Neighbors
import LinkAnalysis.Proofs.Network.Search

/-!
# The graph of the active links

The active links of a network make an undirected graph on its nodes.  A
breadth-first search over their adjacency finds the distances of this graph; its
predecessors are the neighbours one step nearer to the source, and its counts
are the numbers of shortest walks.
-/

namespace LinkAnalysis

open Adjacency

/-- The graph on `n` nodes whose edges are the active links. -/
def linkGraph (n : Nat) (ends : Array (Nat × Nat))
    (active : List Nat) : SimpleGraph (Fin n) :=
  SimpleGraph.fromRel fun u v => ∃ position ∈ active, ends[position]? =
    some (u.val, v.val)

def Network.graphOf (net : Network) (active : List Nat) :
    SimpleGraph (Fin net.size) :=
  linkGraph net.size net.ends active

/-- The graph of all links of a network. -/
def Network.wholeGraph (net : Network) : SimpleGraph (Fin net.size) :=
  net.graphOf (List.range net.linkCount)

/-- Links join two different nodes, the smaller one first, and no two links join
the same nodes. -/
structure SimpleEnds (n : Nat) (ends : Array (Nat × Nat)) : Prop where
  low_lt_high : ∀ {position a b : Nat}, ends[position]? = some (a, b) → a < b
  high_lt : ∀ {position a b : Nat}, ends[position]? = some (a, b) → b < n
  position_unique : ∀ {p q : Nat} {pair : Nat × Nat}, ends[p]? = some pair →
    ends[q]? = some pair → p = q

/-- Active positions are those of links, and none is repeated. -/
structure ActiveLinks (ends : Array (Nat × Nat))
    (active : List Nat) : Prop where
  nodup : active.Nodup
  lt_size : ∀ position ∈ active, position < ends.size

theorem SimpleEnds.inRange
    {n : Nat} {ends : Array (Nat × Nat)}
    (hends : SimpleEnds n ends)
    {active : List Nat}
    (hactive : ActiveLinks ends active) :
    InRange n ends active := by
  intro position hmem
  have hlt := hactive.lt_size position hmem
  have hget := Array.getElem?_eq_getElem hlt
  refine ⟨ends[position].1, ends[position].2, hget, ?_, hends.high_lt hget⟩
  exact (hends.low_lt_high hget).trans (hends.high_lt hget)

/-- A list without repetitions is as long as it has elements. -/
theorem ncard_mem_eq_length
    {β : Type*} {l : List β}
    (hnodup : l.Nodup) :
    {x | x ∈ l}.ncard = l.length := by
  classical
  rw [← List.coe_toFinset, Set.ncard_coe_finset,
    List.toFinset_card_of_nodup hnodup]

section Adjacent

variable {n : Nat} {ends : Array (Nat × Nat)} {active : List Nat}

theorem linkGraph_adj_iff_exists {u v : Fin n} :
    (linkGraph n ends active).Adj u v ↔ u ≠ v ∧ ∃ position,
        (v.val, position) ∈ (ofEnds n ends active).neighbors u.val := by
  rw [linkGraph, SimpleGraph.fromRel_adj]
  apply and_congr_right
  intro _
  simp only [mem_neighbors_ofEnds, u.isLt, true_and]
  constructor
  · rintro (⟨position, hmem, hget⟩ | ⟨position, hmem, hget⟩)
    · exact ⟨position, hmem, Or.inl hget⟩
    · exact ⟨position, hmem, Or.inr hget⟩
  · rintro ⟨position, hmem, hget | hget⟩
    · exact Or.inl ⟨position, hmem, hget⟩
    · exact Or.inr ⟨position, hmem, hget⟩

theorem linkGraph_adj_of_mem
    {position a b : Nat}
    (hmem : position ∈ active)
    (hget : ends[position]? = some (a, b))
    (hne : a ≠ b)
    (ha : a < n)
    (hb : b < n) :
    (linkGraph n ends active).Adj ⟨a, ha⟩ ⟨b, hb⟩ := by
  rw [linkGraph, SimpleGraph.fromRel_adj]
  exact ⟨fun heq => hne (Fin.mk.inj heq), Or.inl ⟨position, hmem, hget⟩⟩

theorem linkGraph_mono {active' : List Nat} (hsubset : active ⊆ active') :
    linkGraph n ends active ≤ linkGraph n ends active' := by
  intro u v hadj
  rw [linkGraph, SimpleGraph.fromRel_adj] at hadj ⊢
  obtain ⟨hne, ⟨position, hmem, hget⟩ | ⟨position, hmem, hget⟩⟩ := hadj
  · exact ⟨hne, Or.inl ⟨position, hsubset hmem, hget⟩⟩
  · exact ⟨hne, Or.inr ⟨position, hsubset hmem, hget⟩⟩

/-- Without one link the graph lacks the edge of the link. -/
theorem linkGraph_filter_ne
    (hends : SimpleEnds n ends)
    {e : Nat} {a b : Fin n}
    (hget : ends[e]? = some (a.val, b.val)) :
    linkGraph n ends (active.filter (· != e)) =
      (linkGraph n ends active).deleteEdges {s(a, b)} := by
  have hlt : a < b := hends.low_lt_high hget
  have hkept :
      ∀ {u v : Fin n} {position : Nat}, ends[position]? = some (u.val, v.val) →
        (position ≠ e ↔ s(u, v) ≠ s(a, b)) := by
    intro u v position huv
    refine not_congr ⟨?_, fun heq => ?_⟩
    · rintro rfl
      have hpair := Option.some.inj (huv.symm.trans hget)
      rw [Prod.mk.injEq, Fin.val_inj, Fin.val_inj] at hpair
      rw [hpair.1, hpair.2]
    · rcases Sym2.eq_iff.mp heq with ⟨rfl, rfl⟩ | ⟨rfl, rfl⟩
      · exact hends.position_unique huv hget
      · exact absurd (hends.low_lt_high huv) hlt.asymm
  ext u v
  simp only [linkGraph, SimpleGraph.deleteEdges_adj, SimpleGraph.fromRel_adj,
    List.mem_filter, bne_iff_ne, Set.mem_singleton_iff]
  constructor
  · rintro ⟨hne, ⟨position, ⟨hmem, hother⟩, hposition⟩
      | ⟨position, ⟨hmem, hother⟩, hposition⟩⟩
    · exact ⟨⟨hne, Or.inl ⟨position, hmem, hposition⟩⟩,
        (hkept hposition).mp hother⟩
    · refine ⟨⟨hne, Or.inr ⟨position, hmem, hposition⟩⟩, ?_⟩
      rw [Sym2.eq_swap]
      exact (hkept hposition).mp hother
  · rintro ⟨⟨hne, ⟨position, hmem, hposition⟩ | ⟨position, hmem, hposition⟩⟩,
      hother⟩
    · exact ⟨hne,
        Or.inl ⟨position, ⟨hmem, (hkept hposition).mpr hother⟩, hposition⟩⟩
    · rw [Sym2.eq_swap] at hother
      exact ⟨hne,
        Or.inr ⟨position, ⟨hmem, (hkept hposition).mpr hother⟩, hposition⟩⟩

theorem SimpleEnds.ne_of_mem_neighbors
    (hends : SimpleEnds n ends)
    {v : Nat} {step : Nat × Nat}
    (hstep : step ∈ (ofEnds n ends active).neighbors v) :
    step.1 ≠ v := by
  obtain ⟨-, -, hget | hget⟩ := mem_neighbors_ofEnds.mp hstep
  · exact (hends.low_lt_high hget).ne'
  · exact (hends.low_lt_high hget).ne

theorem SimpleEnds.eq_of_mem_neighbors
    (hends : SimpleEnds n ends)
    {v w p q : Nat}
    (hp : (w, p) ∈ (ofEnds n ends active).neighbors v)
    (hq : (w, q) ∈ (ofEnds n ends active).neighbors v) :
    p = q := by
  obtain ⟨-, -, hp⟩ := mem_neighbors_ofEnds.mp hp
  obtain ⟨-, -, hq⟩ := mem_neighbors_ofEnds.mp hq
  rcases hp with hp | hp <;> rcases hq with hq | hq
  · exact hends.position_unique hp hq
  · exact absurd (hends.low_lt_high hp) (hends.low_lt_high hq).asymm
  · exact absurd (hends.low_lt_high hp) (hends.low_lt_high hq).asymm
  · exact hends.position_unique hp hq

theorem SimpleEnds.neighbors_nodup
    (hends : SimpleEnds n ends)
    (hactive : ActiveLinks ends active)
    (v : Nat) :
    ((ofEnds n ends active).neighbors v).toList.Nodup := by
  by_cases hv : v < n
  · rw [(neighbors_ofEnds_perm ends active hv).nodup_iff, List.nodup_flatMap]
    constructor
    · intro position _
      unfold endsAt
      cases hget : ends[position]? with
      | none => simp
      | some pair =>
          obtain ⟨a, b⟩ := pair
          have hlt := hends.low_lt_high hget
          by_cases hb : b = v <;> by_cases ha : a = v <;> simp [ha, hb]
          omega
    · refine hactive.nodup.imp fun hne step hleft hright => hne ?_
      exact (mem_endsAt.mp hleft).1.symm.trans (mem_endsAt.mp hright).1
  · rw [neighbors_ofEnds_eq_empty ends active (by omega)]
    simp

theorem SimpleEnds.neighbors_ascending
    (hends : SimpleEnds n ends)
    (hactive : ActiveLinks ends active)
    (v : Nat) :
    ((ofEnds n ends active).neighbors v).toList.Pairwise fun x y =>
      x.1 < y.1 := by
  refine ((neighbors_ofEnds_pairwise n ends active v).and
    (hends.neighbors_nodup hactive v)).imp_of_mem ?_
  rintro ⟨w, p⟩ ⟨w', q⟩ hp hq ⟨hle, hne⟩
  rcases neighborLe_iff.mp hle with hlt | ⟨heq, -⟩
  · exact hlt
  · obtain rfl : w = w' := heq
    obtain rfl := hends.eq_of_mem_neighbors (Array.mem_toList_iff.mp hp)
      (Array.mem_toList_iff.mp hq)
    exact absurd rfl hne

/-- A node has as many neighbours as it has links. -/
theorem SimpleEnds.degree_ofEnds
    (hends : SimpleEnds n ends)
    (hactive : ActiveLinks ends active)
    (v : Fin n) :
    (ofEnds n ends active).degree v.val =
      ((linkGraph n ends active).neighborSet v).ncard := by
  set others :=
    ((ofEnds n ends active).neighbors v.val).toList.map Prod.fst with hothers
  have hnodup : others.Nodup := by
    rw [hothers, List.nodup_iff_pairwise_ne, List.pairwise_map]
    exact (hends.neighbors_ascending hactive v.val).imp ne_of_lt
  have himage : Fin.val '' (linkGraph n ends active).neighborSet v =
      {w | w ∈ others} := by
    ext w
    rw [Set.mem_image, Set.mem_ofPred_eq, hothers, List.mem_map]
    constructor
    · rintro ⟨w, hadj, rfl⟩
      obtain ⟨-, position, hmem⟩ := linkGraph_adj_iff_exists.mp hadj
      exact ⟨_, Array.mem_toList_iff.mpr hmem, rfl⟩
    · rintro ⟨⟨w, position⟩, hmem, rfl⟩
      have hmem := Array.mem_toList_iff.mp hmem
      have hw := lt_of_mem_neighbors_ofEnds (hends.inRange hactive) hmem
      have hne := hends.ne_of_mem_neighbors hmem
      exact ⟨⟨w, hw⟩, linkGraph_adj_iff_exists.mpr
        ⟨fun heq => hne (congrArg Fin.val heq).symm, position, hmem⟩, rfl⟩
  rw [← Set.ncard_image_of_injective _ Fin.val_injective,
    himage, ncard_mem_eq_length hnodup, hothers, List.length_map,
    Array.length_toList, degree]

end Adjacent

section Found

variable {n : Nat} {ends : Array (Nat × Nat)} {active : List Nat}

theorem Adjacency.InRange.closed (hrange : InRange n ends active) :
    (ofEnds n ends active).Closed := by
  intro v step hstep
  rw [size_ofEnds]
  exact lt_of_mem_neighbors_ofEnds hrange hstep

theorem Adjacency.Walk.exists_walk
    (hrange : InRange n ends active)
    {s : Fin n} {v k : Nat}
    (hwalk : (ofEnds n ends active).Walk s.val k v) :
    ∃ (hv : v < n) (p : (linkGraph n ends active).Walk s ⟨v, hv⟩),
      p.length ≤ k := by
  induction hwalk with
  | nil => exact ⟨s.isLt, .nil, le_rfl⟩
  | @snoc k v step _ hstep ih =>
      obtain ⟨hv, p, hp⟩ := ih
      have hlt := lt_of_mem_neighbors_ofEnds hrange hstep
      by_cases heq : v = step.1
      · subst v
        exact ⟨hlt, p, by omega⟩
      · have hadj : (linkGraph n ends active).Adj ⟨v, hv⟩ ⟨step.1, hlt⟩ :=
          linkGraph_adj_iff_exists.mpr ⟨fun hsame => heq (Fin.mk.inj hsame),
            step.2, hstep⟩
        exact ⟨hlt, p.concat hadj,
          by rw [SimpleGraph.Walk.length_concat]; omega⟩

theorem Adjacency.walk_of_walk
    {s v : Fin n} (p : (linkGraph n ends active).Walk s v) :
    (ofEnds n ends active).Walk s.val p.length v.val := by
  induction p using SimpleGraph.Walk.concatRec with
  | Hnil => exact .nil
  | Hconcat p hadj ih =>
      obtain ⟨-, position, hmem⟩ := linkGraph_adj_iff_exists.mp hadj
      rw [SimpleGraph.Walk.length_concat]
      exact ih.snoc hmem

variable {α : Type} [NatCast α] [Add α]

theorem distanceTo_of_reachable
    (hrange : InRange n ends active)
    {s v : Fin n}
    (hreachable : (linkGraph n ends active).Reachable s v) :
    (Geodesics.ofSource (ofEnds n ends active) s.val : Geodesics α).distanceTo
        v.val = some ((linkGraph n ends active).dist s v) := by
  have hs : s.val < (ofEnds n ends active).size := by simp
  obtain ⟨p, hp⟩ := hreachable.exists_walk_length_eq_dist
  obtain ⟨k, hk, hle⟩ :=
    Geodesics.distanceTo_ofSource_le_of_walk (α := α) hrange.closed hs
      (walk_of_walk p)
  obtain ⟨_, q, hq⟩ :=
    (Geodesics.walk_of_distanceTo_ofSource hrange.closed hs hk).exists_walk
      hrange
  have hdist := SimpleGraph.dist_le q
  rw [hk, Option.some.injEq]
  change (linkGraph n ends active).dist s v ≤ q.length at hdist
  omega

theorem distanceTo_of_not_reachable
    (hrange : InRange n ends active)
    {s v : Fin n}
    (hunreachable : ¬ (linkGraph n ends active).Reachable s v) :
    (Geodesics.ofSource (ofEnds n ends active) s.val : Geodesics α).distanceTo
        v.val = none := by
  have hs : s.val < (ofEnds n ends active).size := by simp
  cases hk : (Geodesics.ofSource (ofEnds n ends active) s.val :
    Geodesics α).distanceTo v.val with
  | none => rfl
  | some k =>
      obtain ⟨_, q, _⟩ :=
        (Geodesics.walk_of_distanceTo_ofSource hrange.closed hs hk).exists_walk
          hrange
      exact absurd ⟨q⟩ hunreachable

theorem reachable_of_distanceTo
    (hrange : InRange n ends active)
    {s v : Fin n} {k : Nat}
    (hdist :
      (Geodesics.ofSource (ofEnds n ends active) s.val : Geodesics α).distanceTo
          v.val = some k) :
    (linkGraph n ends active).Reachable s v ∧
      (linkGraph n ends active).dist s v = k := by
  by_cases hreach : (linkGraph n ends active).Reachable s v
  · rw [distanceTo_of_reachable hrange hreach, Option.some.injEq] at hdist
    exact ⟨hreach, hdist⟩
  · rw [distanceTo_of_not_reachable hrange hreach] at hdist
    simp at hdist

/-- No distance is as large as the number of nodes. -/
theorem distanceTo_lt
    (hrange : InRange n ends active)
    {s v k : Nat}
    (hs : s < n)
    (hdistance :
      (Geodesics.ofSource (ofEnds n ends active) s : Geodesics α).distanceTo v =
        some k) :
    k < n := by
  have hv : v < n := by
    simpa using Geodesics.lt_of_distanceTo_ofSource hrange.closed
      (by simpa using hs) hdistance
  rcases reachable_of_distanceTo hrange (s := ⟨s, hs⟩) (v := ⟨v, hv⟩) hdistance
    with ⟨hreach, hdist⟩
  rcases hreach.exists_path_of_dist with ⟨p, hpath, hlength⟩
  have hlt := hpath.length_lt
  rw [Fintype.card_fin, hlength, hdist] at hlt
  exact hlt

theorem mem_order_ofSource_iff (hrange : InRange n ends active) {s v : Fin n} :
    v.val ∈
        (Geodesics.ofSource (ofEnds n ends active) s.val : Geodesics α).order ↔
      (linkGraph n ends active).Reachable s v := by
  obtain ⟨d, hd⟩ := Geodesics.explored_ofSource (α := α) hrange.closed
    (s := s.val) (by simp)
  rw [hd.mem_order_iff]
  by_cases hreach : (linkGraph n ends active).Reachable s v
  · simp [distanceTo_of_reachable hrange hreach, hreach]
  · simp [distanceTo_of_not_reachable hrange hreach, hreach]

/-- The nodes reached, in the order of discovery, are those joined to the
source, nearer ones first. -/
theorem exists_order_eq (hrange : InRange n ends active) (s : Fin n) :
    ∃ order : List (Fin n),
      (Geodesics.ofSource (ofEnds n ends active) s.val :
            Geodesics α).order.toList = order.map Fin.val ∧
      order.Nodup ∧
      (∀ v, v ∈ order ↔ (linkGraph n ends active).Reachable s v) ∧
      order.Pairwise fun v w =>
        (linkGraph n ends active).dist s v ≤
          (linkGraph n ends active).dist s w := by
  obtain ⟨d, hd⟩ :=
    Geodesics.explored_ofSource (α := α) hrange.closed (s := s.val) (by simp)
  obtain ⟨order, horder⟩ :
      (Geodesics.ofSource (ofEnds n ends active) s.val : Geodesics
          α).order.toList ∈ Set.range (List.map (Fin.val : Fin n → Nat)) := by
    rw [Set.range_list_map]
    intro v hv
    have hlt := hd.lt_size_of_mem_order (Array.mem_toList_iff.mp hv)
    exact ⟨⟨v, by simpa using hlt⟩, rfl⟩
  have hmem : ∀ v, v ∈ order ↔ (linkGraph n ends active).Reachable s v := by
    intro v
    rw [← mem_order_ofSource_iff (α := α) hrange, ← Array.mem_toList_iff,
      ← horder, List.mem_map_of_injective Fin.val_injective]
  have hnodup := hd.order_nodup
  have hpairwise := hd.order_pairwise
  rw [← horder] at hnodup hpairwise
  refine ⟨order, horder.symm, hnodup.of_map _, hmem, ?_⟩
  apply (List.pairwise_map.mp hpairwise).imp_of_mem
  intro v w hv hw hle
  rwa [Geodesics.level_of_distanceTo (distanceTo_of_reachable hrange
      ((hmem _).mp hv)), Geodesics.level_of_distanceTo
    (distanceTo_of_reachable hrange ((hmem _).mp hw))] at hle

theorem exists_mem_predecessorsOf_iff
    (hends : SimpleEnds n ends)
    (hactive : ActiveLinks ends active)
    {s v w : Fin n} :
    (∃ position, (v.val, position) ∈ (Geodesics.ofSource (ofEnds n ends active)
          s.val : Geodesics α).predecessorsOf w.val) ↔
      (linkGraph n ends active).Climbs s v w := by
  have hrange := hends.inRange hactive
  simp only [Geodesics.mem_predecessorsOf_ofSource hrange.closed
    (s := s.val) (by simp)]
  constructor
  · rintro ⟨position, hmem, k, hv, hw⟩
    obtain ⟨-, hdistV⟩ := reachable_of_distanceTo hrange hv
    obtain ⟨-, hdistW⟩ := reachable_of_distanceTo hrange hw
    have hne := hends.ne_of_mem_neighbors hmem
    exact ⟨linkGraph_adj_iff_exists.mpr ⟨fun heq =>
        hne (congrArg Fin.val heq).symm, position, hmem⟩, by omega⟩
  · rintro ⟨hadj, hclimb⟩
    obtain ⟨-, position, hmem⟩ := linkGraph_adj_iff_exists.mp hadj
    have hreachW : (linkGraph n ends active).Reachable s w :=
      SimpleGraph.Reachable.of_dist_ne_zero (by omega)
    have hreachV := hreachW.trans hadj.symm.reachable
    refine ⟨position, hmem, _, distanceTo_of_reachable hrange hreachV, ?_⟩
    rw [distanceTo_of_reachable hrange hreachW, hclimb]

open scoped Classical in
/-- A sum over the predecessors of a node is a sum over its neighbours one step
nearer. -/
theorem sum_predecessorsOf
    {β : Type} [AddCommMonoid β]
    (hends : SimpleEnds n ends)
    (hactive : ActiveLinks ends active)
    (s w : Fin n) (f : Nat → β) :
    (((Geodesics.ofSource (ofEnds n ends active) s.val :
        Geodesics α).predecessorsOf w.val).map fun step => f step.1).sum = ∑ v
      with (linkGraph n ends active).Climbs s v w, f v.val := by
  have hrange := hends.inRange hactive
  have hs : s.val < (ofEnds n ends active).size := by simp
  set steps := (Geodesics.ofSource (ofEnds n ends active) s.val :
    Geodesics α).predecessorsOf w.val with hsteps
  have hmem : ∀ {step}, step ∈ steps →
      (w.val, step.2) ∈ (ofEnds n ends active).neighbors step.1 :=
    fun hin =>
      ((Geodesics.mem_predecessorsOf_ofSource hrange.closed hs).mp hin).1
  have hnodup : (steps.map Prod.fst).Nodup := by
    refine List.Nodup.map_on ?_ (Geodesics.predecessorsOf_ofSource_nodup
      hrange.closed hs (hends.neighbors_nodup hactive) w.val)
    rintro ⟨v, p⟩ hp ⟨v', q⟩ hq (rfl : v = v')
    obtain rfl : p = q := hends.eq_of_mem_neighbors (hmem hp) (hmem hq)
    rfl
  have hset : (steps.map Prod.fst).toFinset =
      (Finset.univ.filter fun v => (linkGraph n ends active).Climbs s v w).map
        Fin.valEmbedding := by
    ext x
    simp only [List.mem_toFinset, List.mem_map, Prod.exists, exists_and_right,
      exists_eq_right, Finset.mem_map, Finset.mem_filter, Finset.mem_univ,
      true_and, Fin.valEmbedding_apply]
    constructor
    · rintro ⟨position, hposition⟩
      have hx : x < n := (mem_neighbors_ofEnds.mp (hmem hposition)).1
      exact ⟨⟨x, hx⟩, (exists_mem_predecessorsOf_iff hends hactive).mp
        ⟨position, hposition⟩, rfl⟩
    · rintro ⟨v, hv, rfl⟩
      exact (exists_mem_predecessorsOf_iff hends hactive).mpr hv
  have hmap :
      steps.map (fun step => f step.1) = (steps.map Prod.fst).map f := by
    rw [List.map_map]
    rfl
  rw [hmap, ← List.sum_toFinset f hnodup, hset, Finset.sum_map]
  rfl

end Found

section Counts

variable {n : Nat} {ends : Array (Nat × Nat)} {active : List Nat}
variable {α : Type} [AddCommMonoidWithOne α]

/-- The counts of a search are the numbers of shortest walks. -/
theorem countOf_ofSource
    (hends : SimpleEnds n ends)
    (hactive : ActiveLinks ends active)
    (s w : Fin n) :
    (Geodesics.ofSource (ofEnds n ends active) s.val : Geodesics α).countOf
        w.val = ((linkGraph n ends active).shortestWalkCount s w : α) := by
  classical
  have hclosed := (hends.inRange hactive).closed
  have hs : s.val < (ofEnds n ends active).size := by simp
  induction hdist : (linkGraph n ends active).dist s w
    using Nat.strong_induction_on generalizing w with
  | _ k ih =>
      by_cases hsw : w = s
      · subst w
        rw [Geodesics.countOf_ofSource_self hclosed hs,
          SimpleGraph.shortestWalkCount_self]
      · have hne : w.val ≠ s.val := fun heq => hsw (Fin.ext heq)
        rw [Geodesics.countOf_ofSource_eq_sum hclosed hs hne, List.map_map]
        refine (sum_predecessorsOf hends hactive s w _).trans ?_
        by_cases hreach : (linkGraph n ends active).Reachable w s
        · rw [SimpleGraph.shortestWalkCount_comm,
            SimpleGraph.shortestWalkCount_eq_sum hsw hreach, Nat.cast_sum]
          refine Finset.sum_congr ?_ fun v hv => ?_
          · ext v
            simp only [Finset.mem_filter, Finset.mem_univ, true_and]
            rw [SimpleGraph.adj_comm, SimpleGraph.dist_comm (u := v),
              SimpleGraph.dist_comm (u := w)]
            exact ⟨fun hclimbs => ⟨hclimbs.adj, hclimbs.dist_eq.symm⟩,
              fun hboth => ⟨hboth.1, hboth.2.symm⟩⟩
          · obtain ⟨-, hclimb⟩ := (Finset.mem_filter.mp hv).2
            rw [SimpleGraph.dist_comm, SimpleGraph.dist_comm (u := w)] at hclimb
            rw [SimpleGraph.shortestWalkCount_comm]
            exact ih _ (by omega) v rfl
        · have hzero : (linkGraph n ends active).dist s w = 0 :=
            SimpleGraph.dist_eq_zero_of_not_reachable fun hreachable =>
              hreach hreachable.symm
          rw [SimpleGraph.shortestWalkCount_eq_zero_of_not_reachable
            fun hreachable => hreach hreachable.symm, Nat.cast_zero,
            Finset.sum_eq_zero]
          intro v hv
          obtain ⟨-, hclimb⟩ := (Finset.mem_filter.mp hv).2
          omega

end Counts

end LinkAnalysis
