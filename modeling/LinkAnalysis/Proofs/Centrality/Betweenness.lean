import LinkAnalysis.Proofs.Centrality.Accumulation
import LinkAnalysis.Proofs.Graph.Dependency
import LinkAnalysis.Proofs.Network.Canonical
import Mathlib

/-!
# Betweenness of links and nodes

In exact arithmetic the accumulated scores are the betweenness of the graph of
the active links.  From one source every node collects its dependency on that
source, and every link what it carries from there; the sums over all sources are
the scores.
-/

namespace LinkAnalysis

open Adjacency
open scoped Classical

section Source

variable {n : Nat} {ends : Array (Nat × Nat)} {active : List Nat}

noncomputable def dependencyAt (G : SimpleGraph (Fin n)) (s : Fin n)
    (v : Nat) : ℚ :=
  if hlt : v < n then G.dependency s ⟨v, hlt⟩ else 0

@[simp] theorem dependencyAt_val (G : SimpleGraph (Fin n)) (s v : Fin n) :
    dependencyAt G s v.val = G.dependency s v := by
  simp [dependencyAt]

theorem share_ofSource
    (hends : SimpleEnds n ends)
    (hactive : ActiveLinks ends active)
    (s w v : Fin n) :
    (Geodesics.ofSource (ofEnds n ends active) s.val).share
        (dependencyAt (linkGraph n ends active) s) w.val v.val =
      (linkGraph n ends active).climbingShare s v w := by
  rw [Geodesics.share, dependencyAt_val, countOf_ofSource hends hactive,
    countOf_ofSource hends hactive, SimpleGraph.climbingShare]

/-- What a node hands on to another one: the share of the link that climbs from
there. -/
theorem handed_node
    (hends : SimpleEnds n ends)
    (hactive : ActiveLinks ends active)
    (s v w : Fin n) :
    (Geodesics.ofSource (ofEnds n ends active) s.val).handed
      (dependencyAt (linkGraph n ends active) s) Prod.fst v.val w.val =
      if (linkGraph n ends active).Climbs s v w then
        (linkGraph n ends active).climbingShare s v w else 0 := by
  rw [Geodesics.handed, sum_predecessorsOf hends hactive s w fun u =>
    if u = v.val then (Geodesics.ofSource (ofEnds n ends active) s.val).share
      (dependencyAt (linkGraph n ends active) s) w.val u else 0]
  simp only [Fin.val_inj, share_ofSource hends hactive, Finset.sum_ite_eq',
    Finset.mem_filter, Finset.mem_univ, true_and]

/-- What a node hands on along a link: the share of the link, if it climbs to
the node. -/
theorem handed_link
    (hends : SimpleEnds n ends)
    (hactive : ActiveLinks ends active)
    {e : Nat} {a b : Fin n}
    (he : e ∈ active)
    (hget : ends[e]? = some (a.val, b.val))
    (s w : Fin n) :
    (Geodesics.ofSource (ofEnds n ends active) s.val).handed
        (dependencyAt (linkGraph n ends active) s) Prod.snd e w.val =
      ∑ v with (linkGraph n ends active).Climbs s v w,
        if s(v, w) = s(a, b) then (linkGraph n ends active).climbingShare s v w
        else 0 := by
  have hrange := hends.inRange hactive
  set g : Geodesics ℚ := Geodesics.ofSource (ofEnds n ends active) s.val with hg
  have hforth : (b.val, e) ∈ (ofEnds n ends active).neighbors a.val :=
    mem_neighbors_ofEnds.mpr ⟨a.isLt, he, Or.inl hget⟩
  have hback : (a.val, e) ∈ (ofEnds n ends active).neighbors b.val :=
    mem_neighbors_ofEnds.mpr ⟨b.isLt, he, Or.inr hget⟩
  have hstep : ∀ step ∈ g.predecessorsOf w.val,
      step.2 = e ↔ s(step.1, w.val) = s(a.val, b.val) := by
    rintro ⟨v, position⟩ hmem
    obtain ⟨hneighbor, -⟩ :=
      (Geodesics.mem_predecessorsOf_ofSource hrange.closed (by simp)).mp hmem
    constructor
    · rintro rfl
      obtain ⟨-, -, hvw⟩ := mem_neighbors_ofEnds.mp hneighbor
      simpa [hget, Sym2.eq_iff, eq_comm, and_comm] using hvw
    · intro heq
      rcases Sym2.eq_iff.mp heq with ⟨rfl, hw⟩ | ⟨rfl, hw⟩
      · exact hends.eq_of_mem_neighbors hneighbor (hw ▸ hforth)
      · exact hends.eq_of_mem_neighbors hneighbor (hw ▸ hback)
  have hmap :
      g.handed (dependencyAt (linkGraph n ends active) s) Prod.snd e w.val =
        ((g.predecessorsOf w.val).map fun step =>
          if s(step.1, w.val) = s(a.val, b.val) then
            g.share (dependencyAt (linkGraph n ends active) s) w.val step.1
          else 0).sum :=
    congrArg List.sum (List.map_congr_left fun step hmem =>
      if_congr (hstep step hmem) rfl rfl)
  rw [hmap, sum_predecessorsOf hends hactive s w fun u =>
    if s(u, w.val) = s(a.val, b.val) then
      g.share (dependencyAt (linkGraph n ends active) s) w.val u else 0]
  apply Finset.sum_congr rfl
  intro v _
  simp only [hg, share_ofSource hends hactive, Sym2.eq_iff, Fin.val_inj]

theorem handed_link_of_notMem
    (hends : SimpleEnds n ends)
    (hactive : ActiveLinks ends active)
    {e : Nat}
    (he : e ∉ active)
    (own : Nat → ℚ) (s w : Fin n) :
    (Geodesics.ofSource (ofEnds n ends active) s.val).handed own Prod.snd
        e w.val = 0 := by
  have hrange := hends.inRange hactive
  apply List.sum_eq_zero
  intro share hshare
  obtain ⟨step, hmem, rfl⟩ := List.mem_map.mp hshare
  obtain ⟨hneighbor, -⟩ :=
    (Geodesics.mem_predecessorsOf_ofSource hrange.closed (by simp)).mp hmem
  obtain ⟨-, hposition, -⟩ := mem_neighbors_ofEnds.mp hneighbor
  exact if_neg fun heq : step.2 = e => he (heq ▸ hposition)

/-- The nodes are settled in an order that suits the recursion of
dependencies. -/
theorem dependency_eq_collected
    (hends : SimpleEnds n ends)
    (hactive : ActiveLinks ends active)
    {s v : Fin n} {near far : List (Fin n)}
    (hnodup : (near ++ v :: far).Nodup)
    (hreach : ∀ w,
      w ∈ near ++ v :: far ↔ (linkGraph n ends active).Reachable s w)
    (hpairwise : (near ++ v :: far).Pairwise fun x y =>
      (linkGraph n ends active).dist s x ≤ (linkGraph n ends active).dist s y) :
    (linkGraph n ends active).dependency s v =
      (Geodesics.ofSource (ofEnds n ends active) s.val).collected
        (dependencyAt (linkGraph n ends active) s) Prod.fst
        (far.map Fin.val) v.val := by
  obtain ⟨-, hfar, hnear⟩ := List.pairwise_append.mp hpairwise
  have hsubset : (Finset.univ.filter fun w =>
      (linkGraph n ends active).Climbs s v w) ⊆ far.toFinset := by
    intro w hw
    have hclimbs := (Finset.mem_filter.mp hw).2
    have hclimb := hclimbs.dist_eq
    have hmem :=
      (hreach w).mpr (SimpleGraph.Reachable.of_dist_ne_zero (by omega))
    rw [List.mem_toFinset]
    rcases List.mem_append.mp hmem with hmem | hmem
    · have hle := hnear w hmem v (by simp)
      omega
    · rcases List.mem_cons.mp hmem with rfl | hmem
      · omega
      · exact hmem
  have hnodupFar : far.Nodup := (List.nodup_cons.mp hnodup.of_append_right).2
  rw [SimpleGraph.dependency_eq_sum ((hreach v).mp (by simp)),
    Geodesics.collected, List.map_map, ← List.sum_toFinset _ hnodupFar,
    Finset.sum_filter]
  simp only [Function.comp_apply, handed_node hends hactive]
  refine (Finset.sum_subset (Finset.subset_univ _) fun w _ hw =>
    if_neg fun hclimbs => hw ?_).symm
  exact hsubset (Finset.mem_filter.mpr ⟨Finset.mem_univ w, hclimbs⟩)

theorem settled_addSource
    (hends : SimpleEnds n ends)
    (hactive : ActiveLinks ends active)
    (s : Fin n) {t : Tally ℚ}
    (ht : t.dependency.size = n) :
    Tally.Settled (Geodesics.ofSource (ofEnds n ends active) s.val)
      (dependencyAt (linkGraph n ends active) s)
      (t.reset (Geodesics.ofSource (ofEnds n ends active) s.val))
      (Geodesics.ofSource (ofEnds n ends active) s.val : Geodesics
        ℚ).order.toList (t.addSource (ofEnds n ends active) s.val) := by
  have hrange := hends.inRange hactive
  obtain ⟨order, horder, hnodup, hreach, hpairwise⟩ :=
    exists_order_eq (α := ℚ) hrange s
  have hsize :=
    (Tally.sameSize_reset (Geodesics.ofSource (ofEnds n ends active) s.val)
      t).dependency
  rw [Tally.addSource, ← Array.foldr_toList]
  refine Tally.settled_foldr ?_ (fun w hw => ?_) (fun w _ step hstep heq =>
    ?_) (fun w hw => ?_) (fun w hw => Tally.dependencyOf_reset _ t
    (Array.mem_toList_iff.mp hw)) fun near w far heq => ?_
  · rw [horder]
    exact hnodup.map Fin.val_injective
  · rw [horder] at hw
    obtain ⟨v, hv, rfl⟩ := List.mem_map.mp hw
    rw [countOf_ofSource hends hactive, Nat.cast_pos]
    exact SimpleGraph.shortestWalkCount_pos ((hreach v).mp hv)
  · obtain ⟨hneighbor, -⟩ :=
      (Geodesics.mem_predecessorsOf_ofSource hrange.closed (by simp)).mp hstep
    exact hends.ne_of_mem_neighbors hneighbor heq.symm
  · rw [horder] at hw
    obtain ⟨v, -, rfl⟩ := List.mem_map.mp hw
    rw [hsize, ht]
    exact v.isLt
  · rw [horder] at heq
    obtain ⟨near, rest, rfl, rfl, hrest⟩ := List.map_eq_append_iff.mp heq
    obtain ⟨v, far, rfl, rfl, rfl⟩ := List.map_eq_cons_iff.mp hrest
    rw [dependencyAt_val]
    exact dependency_eq_collected hends hactive hnodup hreach hpairwise

theorem nodeOf_addSource
    (hends : SimpleEnds n ends)
    (hactive : ActiveLinks ends active)
    (s v : Fin n) {t : Tally ℚ} {m : Nat}
    (ht : Tally.SameSize (Tally.blank n m) t) :
    (t.addSource (ofEnds n ends active) s.val).nodeOf v.val = t.nodeOf v.val +
      if s ≠ v then (linkGraph n ends active).dependency s v else 0 := by
  have hrange := hends.inRange hactive
  have hsettled := settled_addSource hends hactive s
    (by simpa [Tally.blank] using ht.dependency)
  have hnode : t.node.size = n := by simpa [Tally.blank] using ht.node
  have hmem : v.val ∈ (Geodesics.ofSource (ofEnds n ends active) s.val :
          Geodesics ℚ).order.toList ↔
      (linkGraph n ends active).Reachable s v := by
    rw [Array.mem_toList_iff, mem_order_ofSource_iff hrange]
  obtain ⟨d, hd⟩ :=
    Geodesics.explored_ofSource (α := ℚ) hrange.closed (s := s.val) (by simp)
  rw [hsettled.nodeOf_eq v.val (by simp [Tally.reset, hnode]), hd.source_eq,
    dependencyAt_val]
  apply congrArg (t.nodeOf v.val + ·)
  by_cases hreach : (linkGraph n ends active).Reachable s v
  · simp only [hmem, hreach, true_and, ne_eq, Fin.val_inj, eq_comm]
  · simp [hmem, hreach, SimpleGraph.dependency_of_not_reachable hreach]

theorem linkOf_addSource
    (hends : SimpleEnds n ends)
    (hactive : ActiveLinks ends active)
    (s : Fin n) {e : Nat} {a b : Fin n}
    (he : e ∈ active)
    (hget : ends[e]? = some (a.val, b.val))
    {t : Tally ℚ}
    (ht : Tally.SameSize (Tally.blank n ends.size) t) :
    (t.addSource (ofEnds n ends active) s.val).linkOf e =
      t.linkOf e + ∑ u, (linkGraph n ends active).useShare s(a, b) s u := by
  have hrange := hends.inRange hactive
  have hsettled := settled_addSource hends hactive s
    (by simpa [Tally.blank] using ht.dependency)
  have hlink : t.link.size = ends.size := by simpa [Tally.blank] using ht.link
  have hadj : (linkGraph n ends active).Adj a b :=
    linkGraph_adj_of_mem he hget (hends.low_lt_high hget).ne a.isLt b.isLt
  obtain ⟨order, horder, hnodup, hreach, -⟩ := exists_order_eq (α := ℚ) hrange s
  rw [hsettled.linkOf_eq e
    (by simpa [Tally.reset, hlink] using hactive.lt_size e he),
    horder, Geodesics.collected, List.map_map, ← List.sum_toFinset _ hnodup,
    SimpleGraph.sum_useShare_eq_sum_climbingShare hadj]
  apply congrArg (t.linkOf e + ·)
  simp only [Function.comp_apply, handed_link hends hactive he hget]
  apply Finset.sum_subset (Finset.subset_univ order.toFinset)
  intro w _ hw
  apply Finset.sum_eq_zero
  intro v hv
  have hclimb := (Finset.mem_filter.mp hv).2.dist_eq
  have hmem := (hreach w).mpr (SimpleGraph.Reachable.of_dist_ne_zero (by omega))
  exact absurd (List.mem_toFinset.mpr hmem) hw

theorem linkOf_addSource_of_notMem
    (hends : SimpleEnds n ends)
    (hactive : ActiveLinks ends active)
    (s : Fin n) {e : Nat}
    (hlt : e < ends.size)
    (he : e ∉ active)
    {t : Tally ℚ}
    (ht : Tally.SameSize (Tally.blank n ends.size) t) :
    (t.addSource (ofEnds n ends active) s.val).linkOf e = t.linkOf e := by
  have hsettled := settled_addSource hends hactive s
    (by simpa [Tally.blank] using ht.dependency)
  have hlink : t.link.size = ends.size := by simpa [Tally.blank] using ht.link
  obtain ⟨order, horder, -⟩ :=
    exists_order_eq (α := ℚ) (hends.inRange hactive) s
  rw [hsettled.linkOf_eq e (by simpa [Tally.reset, hlink] using hlt), horder,
    Geodesics.collected, List.map_map, List.sum_eq_zero]
  · exact add_zero _
  · intro share hshare
    obtain ⟨w, -, rfl⟩ := List.mem_map.mp hshare
    exact handed_link_of_notMem hends hactive he _ s w

end Source

/-! ## All sources -/

section Accumulate

variable {n : Nat} {ends : Array (Nat × Nat)} {active : List Nat}

def tallyOf (n : Nat) (ends : Array (Nat × Nat)) (active : List Nat)
    (sources : List (Fin n)) : Tally ℚ :=
  (sources.map Fin.val).foldl (Tally.addSource (ofEnds n ends active))
    (Tally.blank n ends.size)

theorem tallyOf_concat (sources : List (Fin n)) (s : Fin n) :
    tallyOf n ends active (sources ++ [s]) =
      (tallyOf n ends active sources).addSource (ofEnds n ends active)
        s.val := by
  simp [tallyOf]

theorem sameSize_tallyOf (sources : List (Fin n)) :
    Tally.SameSize (Tally.blank n ends.size) (tallyOf n ends active sources) :=
  Tally.sameSize_foldl_addSource _ _ _

theorem nodeOf_tallyOf
    (hends : SimpleEnds n ends)
    (hactive : ActiveLinks ends active)
    (sources : List (Fin n)) (v : Fin n) :
    (tallyOf n ends active sources).nodeOf v.val = (sources.map fun s =>
        if s ≠ v then (linkGraph n ends active).dependency s v else 0).sum := by
  induction sources using List.reverseRecOn with
  | nil => simp [tallyOf, Tally.blank, Tally.nodeOf]
  | append_singleton sources s ih =>
      rw [tallyOf_concat, nodeOf_addSource hends hactive s v
        (sameSize_tallyOf sources), ih, List.map_append, List.sum_append,
        List.map_singleton, List.sum_singleton]

theorem linkOf_tallyOf
    (hends : SimpleEnds n ends)
    (hactive : ActiveLinks ends active)
    {e : Nat} {a b : Fin n}
    (he : e ∈ active)
    (hget : ends[e]? = some (a.val, b.val))
    (sources : List (Fin n)) :
    (tallyOf n ends active sources).linkOf e = (sources.map fun s =>
        ∑ t, (linkGraph n ends active).useShare s(a, b) s t).sum := by
  induction sources using List.reverseRecOn with
  | nil => simp [tallyOf, Tally.blank, Tally.linkOf, hactive.lt_size e he]
  | append_singleton sources s ih =>
      rw [tallyOf_concat, linkOf_addSource hends hactive s he hget
        (sameSize_tallyOf sources), ih, List.map_append, List.sum_append,
        List.map_singleton, List.sum_singleton]

theorem linkOf_tallyOf_of_notMem
    (hends : SimpleEnds n ends)
    (hactive : ActiveLinks ends active)
    {e : Nat}
    (hlt : e < ends.size)
    (he : e ∉ active)
    (sources : List (Fin n)) :
    (tallyOf n ends active sources).linkOf e = 0 := by
  induction sources using List.reverseRecOn with
  | nil => simp [tallyOf, Tally.blank, Tally.linkOf, hlt]
  | append_singleton sources s ih =>
      rw [tallyOf_concat, linkOf_addSource_of_notMem hends hactive s hlt he
        (sameSize_tallyOf sources), ih]

/-- Scores that are the betweenness of the graph of the active links. -/
structure Betweenness.IsExact (n : Nat) (ends : Array (Nat × Nat))
    (active : List Nat) (b : Betweenness ℚ) : Prop where
  size_node : b.node.size = n
  size_link : b.link.size = ends.size
  node_eq : ∀ v : Fin n,
    b.node[v.val]? = some ((linkGraph n ends active).nodeBetweenness v)
  link_eq :
    ∀ (e : Nat) (a b' : Fin n), e ∈ active → ends[e]? = some (a.val, b'.val) →
      b.link[e]? = some ((linkGraph n ends active).edgeBetweenness s(a, b'))
  link_eq_zero : ∀ e < ends.size, e ∉ active → b.link[e]? = some 0

theorem accumulate_isExact
    (hends : SimpleEnds n ends)
    (hactive : ActiveLinks ends active) :
    ∃ b, accumulate .live (ofEnds n ends active) ends.size = .ok b ∧
      b.IsExact n ends active := by
  have hnodes :
      (ofEnds n ends active).nodes = (List.finRange n).map Fin.val := by
    rw [nodes, size_ofEnds, List.map_coe_finRange_eq_range]
  have hsize : Tally.SameSize (Tally.blank n ends.size)
      (tallyOf n ends active (List.finRange n)) :=
    sameSize_tallyOf _
  have hnode : (tallyOf n ends active (List.finRange n)).node.size = n := by
    simpa [Tally.blank] using hsize.node
  have hlink :
      (tallyOf n ends active (List.finRange n)).link.size = ends.size := by
    simpa [Tally.blank] using hsize.link
  have hget : ∀ {scores : Array ℚ} {x : Nat} {score : ℚ}, x < scores.size →
      scores.getD x 0 = score → scores[x]? = some score := by
    intro scores x score hx hscore
    rw [Array.getD_eq_getD_getElem?, Array.getElem?_eq_getElem hx] at hscore
    rw [Array.getElem?_eq_getElem hx]
    exact congrArg some hscore
  refine ⟨⟨(tallyOf n ends active (List.finRange n)).node,
    (tallyOf n ends active (List.finRange n)).link⟩, ?_, hnode, hlink,
    fun v => ?_, fun e a b he hab => ?_, fun e hlt he => ?_⟩
  · rw [accumulate_live_eq, size_ofEnds, hnodes]
    rfl
  · refine hget (by rw [hnode]; exact v.isLt)
      ((nodeOf_tallyOf hends hactive _ v).trans ?_)
    rw [SimpleGraph.nodeBetweenness_eq_sum_dependency, Finset.sum_filter,
      Fin.sum_univ_def]
    refine congrArg List.sum (List.map_congr_left fun s _ => ?_)
    congr
  · refine hget (hlink ▸ hactive.lt_size e he)
      ((linkOf_tallyOf hends hactive he hab _).trans ?_)
    rw [SimpleGraph.edgeBetweenness_eq_sum_useShare, Fin.sum_univ_def]
  · exact hget (hlink ▸ hlt) (linkOf_tallyOf_of_notMem hends hactive hlt he _)

end Accumulate

/-! ## Networks -/

/-- The scores accumulated over any of the links of a network are the
betweenness of their graph; all other links score zero. -/
theorem accumulate_eq_betweenness
    (s : Snapshot) {active : List Nat}
    (hnodup : active.Nodup)
    (hlt : ∀ e ∈ active, e < (Network.ofSnapshot s).linkCount) :
    ∃ b : Betweenness ℚ,
      accumulate .live ((Network.ofSnapshot s).adjacencyOf active)
          (Network.ofSnapshot s).linkCount = .ok b ∧
      b.node.size = (Network.ofSnapshot s).size ∧
      b.link.size = (Network.ofSnapshot s).linkCount ∧
      (∀ v, b.node[v.val]? =
        some (((Network.ofSnapshot s).graphOf active).nodeBetweenness v)) ∧
      (∀ e ∈ active, ∃ u v,
        (Network.ofSnapshot s).ends[e]? = some (u.val, v.val) ∧
        ((Network.ofSnapshot s).graphOf active).Adj u v ∧
        b.link[e]? = some
          (((Network.ofSnapshot s).graphOf active).edgeBetweenness s(u, v))) ∧
      ∀ e < (Network.ofSnapshot s).linkCount, e ∉ active →
        b.link[e]? = some 0 := by
  have hends := Network.simpleEnds_ofSnapshot s
  have hactive := Network.activeLinks_of_nodup hnodup hlt
  obtain ⟨b, hb, hexact⟩ := accumulate_isExact hends hactive
  rw [Network.size_ends] at hb
  refine ⟨b, hb, hexact.size_node, ?_, hexact.node_eq, fun e he => ?_,
    fun e he hnot => ?_⟩
  · rw [hexact.size_link, Network.size_ends]
  · obtain ⟨u, v, hget, hu, hv⟩ := hends.inRange hactive e he
    refine ⟨⟨u, hu⟩, ⟨v, hv⟩, hget, ?_,
      hexact.link_eq e ⟨u, hu⟩ ⟨v, hv⟩ he hget⟩
    exact linkGraph_adj_of_mem he hget (hends.low_lt_high hget).ne hu hv
  · exact hexact.link_eq_zero e (by rwa [Network.size_ends]) hnot

def rowSnapshot : Snapshot where
  nodes := [Node.bare "a", Node.bare "b", Node.bare "c"]
  edges := [Edge.bare "a" "b", Edge.bare "c" "b"]
  id_ne_empty := by decide
  ids_nodup := by decide

theorem accumulate_eq_betweenness_rowSnapshot :
    ∃ b : Betweenness ℚ,
      accumulate .live ((Network.ofSnapshot rowSnapshot).adjacencyOf [1])
          (Network.ofSnapshot rowSnapshot).linkCount = .ok b ∧
      b.link[0]? = some 0 := by
  have hcount : (Network.ofSnapshot rowSnapshot).linkCount = 2 := by cbv
  have hlt : ∀ e ∈ [1], e < (Network.ofSnapshot rowSnapshot).linkCount := by
    rw [hcount]
    decide
  obtain ⟨b, hb, -, -, -, -, hzero⟩ :=
    accumulate_eq_betweenness rowSnapshot (by decide) hlt
  exact ⟨b, hb, hzero 0 (by rw [hcount]; decide) (by decide)⟩

end LinkAnalysis
