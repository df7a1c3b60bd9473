import LinkAnalysis.Proofs.Community.Greedy
import LinkAnalysis.Proofs.Graph.TwinCliques
import LinkAnalysis.Proofs.Network.Rearrangement
import LinkAnalysis.Proofs.Report.Communities

/-!
# Two cliques split at their bridge

A snapshot whose ids fall into two parts, each of them joined throughout, and
one edge from part to part.  No other link carries nearly as much as the one
between the parts, so it alone is within the width of a tie, and it is the first
cut.  What it leaves are the two parts, as many components as were aimed at.
-/

/-- Only the bridge is within the width of a tie. -/
theorem SimpleGraph.IsTwinCliques.eq_of_isTied
    {V : Type*} [Fintype V] [DecidableEq V] {G : SimpleGraph V}
    {left : Finset V} {x y : V}
    (hcliques : G.IsTwinCliques left x y)
    (hleft : 2 ≤ left.card)
    (hright : 2 ≤ leftᶜ.card)
    {edge : Sym2 V}
    (htied : G.IsTied edge) :
    edge = s(x, y) := by
  by_contra hne
  rcases htied with ⟨hedge, most, hmost, hnear⟩
  have hbridge : G.edgeBetweenness s(x, y) ≤ most :=
    hmost.2 ⟨s(x, y), hcliques.adj, rfl⟩
  have htwo : 2 ≤ G.edgeBetweenness s(x, y) :=
    two_le_edgeBetweenness hcliques.adj
  have hfar : G.edgeBetweenness edge ≤ 3 / 4 * G.edgeBetweenness s(x, y) :=
    hcliques.edgeBetweenness_le hleft (by convert hright) hedge hne
  rw [max_eq_left (by linarith)] at hnear
  linarith

namespace LinkAnalysis

open Network

/-- The ids fall into two parts, and apart from an edge between `x` and `y` the
edges join any two ids of one part and no ids of different parts. -/
structure Snapshot.TwinCliques (s : Snapshot) (left right : List String)
    (x y : String) : Prop where
  ids_perm : (s.nodes.map Node.id).Perm (left ++ right)
  mem_left : x ∈ left
  mem_right : y ∈ right
  joined_iff : ∀ u ∈ left ++ right, ∀ v ∈ left ++ right, u ≠ v →
    ((∃ e ∈ s.edges, e.joined = s(u, v)) ↔
      u ∈ left ∧ v ∈ left ∨ u ∈ right ∧ v ∈ right ∨ s(u, v) = s(x, y))

/-- The only removal is the link between `x` and `y`, and the communities are
the two parts. -/
structure Partition.Splits (net : Network) (left right : List String)
    (x y : String) (p : Partition) : Prop where
  stopReason_eq : p.stopReason = .targetReached
  iterations_eq : p.iterations = 1
  exists_removed_eq : ∃ e l,
    p.removed = [e] ∧
    net.links[e]? = some l ∧
    s(net.idOf l.low, net.idOf l.high) = s(x, y)
  componentCount_eq : p.componentCount = 2
  /-- The larger part stands first, and of parts of one size that with the
  smaller first id. -/
  exists_communities_eq : ∃ first second,
    p.communities.map (List.map net.idOf) = [first, second] ∧
    (first.Perm left ∧ second.Perm right ∨
      first.Perm right ∧ second.Perm left) ∧
    ListedBefore first second
  ascending : ∀ group ∈ p.communities,
    (group.map net.idOf).Pairwise fun u v => utf8Bytes u < utf8Bytes v

/-! ## Ids and nodes -/

namespace Network

section Nodes

variable {s : Snapshot}

/-- The nodes with these ids. -/
noncomputable def nodesOf (s : Snapshot) (ids : List String) :
    Finset (Fin (ofSnapshot s).size) :=
  Finset.univ.filter fun v => (ofSnapshot s).idOf v ∈ ids

theorem mem_nodesOf {ids : List String} {v : Fin (ofSnapshot s).size} :
    v ∈ nodesOf s ids ↔ (ofSnapshot s).idOf v ∈ ids := by
  simp [nodesOf]

theorem idOf_inj {v w : Fin (ofSnapshot s).size} :
    (ofSnapshot s).idOf v = (ofSnapshot s).idOf w ↔ v = w :=
  ⟨fun heq => Fin.ext (idOf_injective v.isLt w.isLt heq),
    fun heq => by rw [heq]⟩

theorem idOf_mem (v : Fin (ofSnapshot s).size) :
    (ofSnapshot s).idOf v ∈ s.nodes.map Node.id :=
  (map_idOf_range_perm s).mem_iff.mp
    (List.mem_map_of_mem (List.mem_range.mpr v.isLt))

theorem card_nodesOf
    {ids : List String}
    (hnodup : ids.Nodup)
    (hsubset : ids ⊆ s.nodes.map Node.id) :
    (nodesOf s ids).card = ids.length := by
  have himage : (nodesOf s ids).image (fun v => (ofSnapshot s).idOf v.val) =
      ids.toFinset := by
    ext id
    rw [Finset.mem_image, List.mem_toFinset]
    constructor
    · intro hexists
      rcases hexists with ⟨v, hv, rfl⟩
      exact mem_nodesOf.mp hv
    · intro hid
      rcases exists_idOf_eq (hsubset hid) with ⟨v, rfl⟩
      exact ⟨v, mem_nodesOf.mpr hid, rfl⟩
  rw [← List.toFinset_card_of_nodup hnodup, ← himage,
    Finset.card_image_of_injective _ fun _ _ heq => idOf_inj.mp heq]

/-- The members of a component that consists of the nodes with these ids. -/
theorem map_idOf_members_perm
    {removed : List Nat}
    {c : ((ofSnapshot s).graphWithout removed).ConnectedComponent}
    {ids : List String}
    (hnodup : ids.Nodup)
    (hsubset : ids ⊆ s.nodes.map Node.id)
    (hsupp : ∀ v, v ∈ c.supp ↔ (ofSnapshot s).idOf v ∈ ids) :
    (c.members.map (ofSnapshot s).idOf).Perm ids := by
  have hmembers : (c.members.map (ofSnapshot s).idOf).Nodup :=
    (map_idOf_members_ascending c).imp fun hlt => (utf8Bytes_lt_iff.mp hlt).ne
  refine (List.perm_ext_iff_of_nodup hmembers hnodup).mpr fun id => ?_
  rw [List.mem_map]
  constructor
  · intro hexists
    rcases hexists with ⟨v, hv, rfl⟩
    rcases SimpleGraph.ConnectedComponent.mem_members.mp hv with ⟨hlt, hmk⟩
    exact (hsupp ⟨v, hlt⟩).mp hmk
  · intro hid
    rcases exists_idOf_eq (hsubset hid) with ⟨v, rfl⟩
    exact ⟨v, SimpleGraph.ConnectedComponent.val_mem_members.mpr
      ((hsupp v).mpr hid), rfl⟩

/-- Two nodes are joined exactly if some edge of the snapshot joins their
ids. -/
theorem graphWithout_nil_adj_iff {u v : Fin (ofSnapshot s).size} :
    ((ofSnapshot s).graphWithout []).Adj u v ↔ u ≠ v ∧ ∃ e ∈ s.edges,
        e.joined = s((ofSnapshot s).idOf u, (ofSnapshot s).idOf v) := by
  have hlinks : ∀ {a b : Fin (ofSnapshot s).size}, a < b →
      (((ofSnapshot s).graphWithout []).Adj a b ↔ ∃ e ∈ s.edges,
        e.joined = s((ofSnapshot s).idOf a, (ofSnapshot s).idOf b)) := by
    intro a b hlt
    rw [← (canonical_ofSnapshot s).exists_link_iff a b hlt b.isLt, graphWithout,
      linksWithout_nil, graphOf, linkGraph_adj_iff_exists, ← adjacencyOf,
      ← adjacency_ofSnapshot]
    simp only [mem_neighbors_ofSnapshot_iff]
    constructor
    · intro hboth
      rcases hboth with ⟨-, position, l, hget, hends⟩
      have hl := Array.mem_of_getElem? hget
      rcases hends with hends | hends
      · exact ⟨l, hl, (Prod.mk.inj hends).1, (Prod.mk.inj hends).2⟩
      · have hback := (link_ofSnapshot s hl).1
        rw [(Prod.mk.inj hends).1, (Prod.mk.inj hends).2] at hback
        exact absurd hback hlt.asymm
    · intro hexists
      rcases hexists with ⟨l, hl, hlow, hhigh⟩
      rcases Array.mem_iff_getElem?.mp hl with ⟨position, hget⟩
      exact ⟨hlt.ne, position, l, hget, Or.inl (Prod.ext hlow hhigh)⟩
  rcases lt_trichotomy u v with hlt | rfl | hlt
  · rw [hlinks hlt, and_iff_right hlt.ne]
  · simp
  · rw [SimpleGraph.adj_comm, hlinks hlt, Sym2.eq_swap, and_iff_right hlt.ne']

end Nodes

end Network

/-! ## The graph of the snapshot -/

namespace Snapshot.TwinCliques

variable {s : Snapshot} {left right : List String} {x y : String}

theorem append_nodup (hcliques : s.TwinCliques left right x y) :
    (left ++ right).Nodup :=
  hcliques.ids_perm.nodup_iff.mp s.ids_nodup

theorem left_subset (hcliques : s.TwinCliques left right x y) :
    left ⊆ s.nodes.map Node.id :=
  fun _ hid => hcliques.ids_perm.mem_iff.mpr (List.mem_append_left _ hid)

theorem right_subset (hcliques : s.TwinCliques left right x y) :
    right ⊆ s.nodes.map Node.id :=
  fun _ hid => hcliques.ids_perm.mem_iff.mpr (List.mem_append_right _ hid)

theorem size_eq (hcliques : s.TwinCliques left right x y) :
    (Network.ofSnapshot s).size = left.length + right.length := by
  rw [size_ofSnapshot, (sortedIds_perm s).length_eq,
    hcliques.ids_perm.length_eq, List.length_append]

theorem mem_right_iff
    (hcliques : s.TwinCliques left right x y)
    {v : Fin (Network.ofSnapshot s).size} :
    (Network.ofSnapshot s).idOf v ∈ right ↔
      (Network.ofSnapshot s).idOf v ∉ left := by
  have hmem := List.mem_append.mp (hcliques.ids_perm.mem_iff.mp (idOf_mem v))
  have hdisjoint := (List.nodup_append.mp hcliques.append_nodup).2.2
  exact ⟨fun hright hleft => hdisjoint _ hleft _ hright rfl, hmem.resolve_left⟩

theorem compl_nodesOf (hcliques : s.TwinCliques left right x y) :
    (nodesOf s left)ᶜ = nodesOf s right := by
  ext v
  rw [Finset.mem_compl, mem_nodesOf, mem_nodesOf, hcliques.mem_right_iff]

theorem card_left (hcliques : s.TwinCliques left right x y) :
    (nodesOf s left).card = left.length :=
  card_nodesOf (List.nodup_append.mp hcliques.append_nodup).1
    hcliques.left_subset

theorem card_right (hcliques : s.TwinCliques left right x y) :
    (nodesOf s left)ᶜ.card = right.length := by
  rw [hcliques.compl_nodesOf]
  exact card_nodesOf
    (List.nodup_append.mp hcliques.append_nodup).2.1 hcliques.right_subset

theorem isTwinCliques (hcliques : s.TwinCliques left right x y) :
    ∃ a b : Fin (Network.ofSnapshot s).size,
      (Network.ofSnapshot s).idOf a = x ∧
      (Network.ofSnapshot s).idOf b = y ∧
      ((Network.ofSnapshot s).graphWithout []).IsTwinCliques (nodesOf s left)
        a b := by
  rcases exists_idOf_eq (hcliques.left_subset hcliques.mem_left) with ⟨a, rfl⟩
  rcases exists_idOf_eq (hcliques.right_subset hcliques.mem_right) with ⟨b, rfl⟩
  refine ⟨a, b, rfl, rfl, mem_nodesOf.mpr hcliques.mem_left, ?_, fun u v => ?_⟩
  · rw [mem_nodesOf]
    exact hcliques.mem_right_iff.mp hcliques.mem_right
  · rw [graphWithout_nil_adj_iff]
    apply and_congr_right
    intro hne
    have hids : ∀ w : Fin (Network.ofSnapshot s).size,
        (Network.ofSnapshot s).idOf w ∈ left ++ right :=
      fun w => hcliques.ids_perm.mem_iff.mp (idOf_mem w)
    have hjoined :=
      hcliques.joined_iff _ (hids u) _ (hids v) fun heq => hne (idOf_inj.mp heq)
    rw [hjoined, mem_nodesOf, mem_nodesOf, hcliques.mem_right_iff,
      hcliques.mem_right_iff, Sym2.eq_iff, Sym2.eq_iff, idOf_inj, idOf_inj,
      idOf_inj, idOf_inj, ← or_assoc, ← iff_iff_and_or_not_and_not]

end Snapshot.TwinCliques

/-! ## The run -/

namespace Network

section Cut

variable {s : Snapshot} {left : Finset (Fin (ofSnapshot s).size)}
  {a b : Fin (ofSnapshot s).size}

/-- The first cut is the bridge. -/
theorem exists_nextCut?_of_isTwinCliques
    (hcliques : ((ofSnapshot s).graphWithout []).IsTwinCliques left a b)
    (hleft : 2 ≤ left.card)
    (hright : 2 ≤ leftᶜ.card) :
    ∃ e l,
      (ofSnapshot s).nextCut? ℚ [] = some e ∧
      (ofSnapshot s).links[e]? = some l ∧
      ∃ u v : Fin (ofSnapshot s).size,
        l.ends = (u.val, v.val) ∧ s(u, v) = s(a, b) := by
  have hnet := simpleEnds_ofSnapshot s
  rcases exists_selected hnet [] with ⟨scores, hscores, -, hselect⟩
  have hedge : s(a, b) ∈ ((ofSnapshot s).graphWithout []).edgeSet :=
    hcliques.adj
  rcases (mem_edgeSet_graphWithout hnet).mp hedge with ⟨e₀, he₀, -⟩
  rcases hselect (List.ne_nil_of_mem he₀) with ⟨e, -, he⟩
  have hnext : (ofSnapshot s).nextCut? ℚ [] = some e :=
    nextCut?_eq_some_iff.mpr ⟨scores, hscores, he⟩
  rcases isFirstTied_of_nextCut? s hnext with ⟨l, hl, ⟨u, v, hends, htied⟩, -⟩
  exact ⟨e, l, hnext, hl, u, v, hends, hcliques.eq_of_isTied hleft hright htied⟩

/-- Without the bridge the parts are what stays joined. -/
theorem reachable_graphWithout_of_bridge
    (hcliques : ((ofSnapshot s).graphWithout []).IsTwinCliques left a b)
    {e : Nat} {l : Link} {u v : Fin (ofSnapshot s).size}
    (hl : (ofSnapshot s).links[e]? = some l)
    (hends : l.ends = (u.val, v.val))
    (hbridge : s(u, v) = s(a, b))
    (w w' : Fin (ofSnapshot s).size) :
    ((ofSnapshot s).graphWithout [e]).Reachable w w' ↔
      (w ∈ left ↔ w' ∈ left) := by
  have hget : (ofSnapshot s).ends[e]? = some (u.val, v.val) :=
    getElem?_ends.mpr ⟨l, hl, (Prod.mk.inj hends).1, (Prod.mk.inj hends).2⟩
  rw [graphWithout_cons (simpleEnds_ofSnapshot s) hget, hbridge]
  exact hcliques.reachable_deleteEdges_iff

theorem componentCountWithout_nil_of_isTwinCliques
    (hcliques : ((ofSnapshot s).graphWithout []).IsTwinCliques left a b) :
    (ofSnapshot s).componentCountWithout [] = 1 := by
  have := hcliques.preconnected.subsingleton_connectedComponent
  have : Nonempty ((ofSnapshot s).graphWithout []).ConnectedComponent :=
    ⟨SimpleGraph.connectedComponentMk _ a⟩
  exact Nat.card_eq_one_iff_unique.mpr ⟨inferInstance, inferInstance⟩

end Cut

section Parts

variable {net : Network} {removed : List Nat}
  {part : Finset (Fin net.size)} {a b : Fin net.size} (hreach :
  ∀ v w, (net.graphWithout removed).Reachable v w ↔ (v ∈ part ↔ w ∈ part))

include hreach

/-- The component of a node of the one part, and that of a node of the other
part, are all there are. -/
theorem eq_mk_or_eq_mk
    (ha : a ∈ part)
    (hb : b ∉ part)
    (c : (net.graphWithout removed).ConnectedComponent) :
    c = (net.graphWithout removed).connectedComponentMk a ∨
      c = (net.graphWithout removed).connectedComponentMk b := by
  induction c using SimpleGraph.ConnectedComponent.ind with
  | _ v =>
    rw [SimpleGraph.ConnectedComponent.eq, SimpleGraph.ConnectedComponent.eq,
      hreach, hreach]
    by_cases hv : v ∈ part
    · exact Or.inl (iff_of_true hv ha)
    · exact Or.inr (iff_of_false hv hb)

theorem mk_ne_mk
    (ha : a ∈ part)
    (hb : b ∉ part) :
    (net.graphWithout removed).connectedComponentMk a ≠
      (net.graphWithout removed).connectedComponentMk b := by
  rw [Ne, SimpleGraph.ConnectedComponent.eq, hreach]
  exact fun hsame => hb (hsame.mp ha)

theorem mem_supp_mk_iff {v w : Fin net.size} :
    v ∈ ((net.graphWithout removed).connectedComponentMk w).supp ↔
      (v ∈ part ↔ w ∈ part) := by
  rw [SimpleGraph.ConnectedComponent.mem_supp_iff,
    SimpleGraph.ConnectedComponent.eq, hreach]

theorem componentCountWithout_eq_two
    (ha : a ∈ part)
    (hb : b ∉ part) :
    net.componentCountWithout removed = 2 := by
  rw [componentCountWithout, Nat.card_eq_two_iff]
  refine ⟨_, _, mk_ne_mk hreach ha hb, Set.eq_univ_of_forall fun c => ?_⟩
  exact eq_mk_or_eq_mk hreach ha hb c

/-- Both parts are reported, if both are large enough. -/
theorem exists_reported_eq_pair
    (hnet : SimpleEnds net.size net.ends)
    (config : CommunityConfig)
    (ha : a ∈ part)
    (hb : b ∉ part)
    (hmin : config.minSize ≤ part.card)
    (hmin' : config.minSize ≤ partᶜ.card)
    (hmax : 2 ≤ config.maxCommunities) :
    ∃ c d : (net.graphWithout removed).ConnectedComponent,
      reported config (net.componentsWithout removed) = [c.members, d.members] ∧
      c.Precedes d ∧
      (c = SimpleGraph.connectedComponentMk _ a ∧
          d = SimpleGraph.connectedComponentMk _ b ∨
        c = SimpleGraph.connectedComponentMk _ b ∧
          d = SimpleGraph.connectedComponentMk _ a) := by
  rcases exists_order_reported hnet removed config
    with ⟨order, hsorted, hmem, heq⟩
  have hsuppA :
      ((net.graphWithout removed).connectedComponentMk a).supp = part := by
    ext v
    rw [mem_supp_mk_iff hreach, iff_true_right ha, Finset.mem_coe]
  have hsuppB : ((net.graphWithout removed).connectedComponentMk b).supp =
      (partᶜ : Finset _) := by
    ext v
    rw [mem_supp_mk_iff hreach, iff_false_right hb, Finset.mem_coe,
      Finset.mem_compl]
  have hlarge : ∀ c, c ∈ order := by
    intro c
    rw [hmem]
    rcases eq_mk_or_eq_mk hreach ha hb c with rfl | rfl
    · rwa [hsuppA, Set.ncard_coe_finset]
    · rwa [hsuppB, Set.ncard_coe_finset]
  have hnodup : order.Nodup := hsorted.imp fun hprecedes heq => by
    subst heq
    exact hprecedes.not_precedes hprecedes
  have hperm : order.Perm [(net.graphWithout removed).connectedComponentMk a,
      (net.graphWithout removed).connectedComponentMk b] := by
    refine (List.perm_ext_iff_of_nodup hnodup ?_).mpr fun c =>
      iff_of_true (hlarge c) ?_
    · simpa using mk_ne_mk hreach ha hb
    · simpa using eq_mk_or_eq_mk hreach ha hb c
  rw [List.take_of_length_le (by rw [hperm.length_eq]; exact hmax)] at heq
  rcases List.perm_pair.mp hperm with rfl | rfl
  · exact ⟨_, _, heq, List.rel_of_pairwise_cons hsorted
      (List.mem_singleton_self _), Or.inl ⟨rfl, rfl⟩⟩
  · exact ⟨_, _, heq, List.rel_of_pairwise_cons hsorted
      (List.mem_singleton_self _), Or.inr ⟨rfl, rfl⟩⟩

end Parts

/-- One component is too few, and two are as many as are aimed at. -/
theorem haltsAt_one_of_isTwinCliques
    {s : Snapshot} {left : Finset (Fin (ofSnapshot s).size)}
    {a b : Fin (ofSnapshot s).size}
    (hcliques : ((ofSnapshot s).graphWithout []).IsTwinCliques left a b)
    {e : Nat}
    (hnext : (ofSnapshot s).nextCut? ℚ [] = some e)
    (hreach : ∀ v w,
      ((ofSnapshot s).graphWithout [e]).Reachable v w ↔ (v ∈ left ↔ w ∈ left))
    {limit : Nat}
    (hlimit : 1 ≤ limit) :
    (ofSnapshot s).HaltsAt ℚ 2 limit 1 .targetReached := by
  have hnet := simpleEnds_ofSnapshot s
  have hcuts : (ofSnapshot s).cuts ℚ 1 = [e] := cuts_succ_of_some hnext
  refine ⟨haltReason?_eq_targetReached_iff.mpr ?_,
    fun j hj => haltReason?_eq_none_iff.mpr ?_⟩
  · rw [hcuts, length_componentsWithout hnet, componentCountWithout_eq_two
      hreach hcliques.mem_left hcliques.notMem_left]
  · obtain rfl : j = 0 := Nat.lt_one_iff.mp hj
    refine ⟨?_, hlimit, e, hnext⟩
    rw [cuts, length_componentsWithout hnet,
      componentCountWithout_nil_of_isTwinCliques hcliques]
    exact Nat.one_lt_two

end Network

/-! ## The two parts -/

section Reported

variable {s : Snapshot} {left right : List String}
  {x y : String} {removed : List Nat} {a b : Fin (Network.ofSnapshot s).size}
  (hcliques : s.TwinCliques left right x y)
  (hreach : ∀ v w, ((Network.ofSnapshot s).graphWithout removed).Reachable v w ↔
  (v ∈ nodesOf s left ↔ w ∈ nodesOf s left))

include hcliques hreach

theorem Snapshot.TwinCliques.map_idOf_members_perm_left
    (ha : a ∈ nodesOf s left) :
    ((((Network.ofSnapshot s).graphWithout removed).connectedComponentMk
        a).members.map (Network.ofSnapshot s).idOf).Perm left := by
  refine map_idOf_members_perm (List.nodup_append.mp hcliques.append_nodup).1
    hcliques.left_subset fun v => ?_
  rw [mem_supp_mk_iff hreach, iff_true_right ha, mem_nodesOf]

theorem Snapshot.TwinCliques.map_idOf_members_perm_right
    (hb : b ∉ nodesOf s left) :
    ((((Network.ofSnapshot s).graphWithout removed).connectedComponentMk
        b).members.map (Network.ofSnapshot s).idOf).Perm right := by
  refine map_idOf_members_perm (List.nodup_append.mp hcliques.append_nodup).2.1
    hcliques.right_subset fun v => ?_
  rw [mem_supp_mk_iff hreach, iff_false_right hb, mem_nodesOf,
    hcliques.mem_right_iff]

/-- Once only the parts stay joined, their ids are what is reported. -/
theorem Snapshot.TwinCliques.exists_map_reported_eq
    (ha : a ∈ nodesOf s left)
    (hb : b ∉ nodesOf s left)
    {config : CommunityConfig}
    (hmin : config.minSize ≤ min left.length right.length)
    (hmax : 2 ≤ config.maxCommunities) :
    ∃ first second,
      (reported config ((Network.ofSnapshot s).componentsWithout removed)).map
          (List.map (Network.ofSnapshot s).idOf) = [first, second] ∧
      (first.Perm left ∧ second.Perm right ∨
        first.Perm right ∧ second.Perm left) ∧
      ListedBefore first second := by
  have hminLeft : config.minSize ≤ (nodesOf s left).card := by
    rw [hcliques.card_left]
    exact hmin.trans (min_le_left _ _)
  have hminRight : config.minSize ≤ (nodesOf s left)ᶜ.card := by
    rw [hcliques.card_right]
    exact hmin.trans (min_le_right _ _)
  rcases exists_reported_eq_pair hreach (simpleEnds_ofSnapshot s) config ha hb
    hminLeft hminRight hmax with ⟨c, d, hreported, hprecedes, horder⟩
  refine ⟨_, _, by rw [hreported, List.map_cons, List.map_cons, List.map_nil],
    ?_, listedBefore_of_precedes hprecedes⟩
  rcases horder with ⟨rfl, rfl⟩ | ⟨rfl, rfl⟩
  · exact Or.inl ⟨hcliques.map_idOf_members_perm_left hreach ha,
      hcliques.map_idOf_members_perm_right hreach hb⟩
  · exact Or.inr ⟨hcliques.map_idOf_members_perm_right hreach hb,
      hcliques.map_idOf_members_perm_left hreach ha⟩

end Reported

/-- The ids of a community stand in ascending order. -/
theorem Network.map_idOf_ascending_of_mem_reported
    {s : Snapshot} {removed : List Nat} {config : CommunityConfig}
    {group : List Nat}
    (hgroup :
      group ∈ reported config ((ofSnapshot s).componentsWithout removed)) :
    (group.map (ofSnapshot s).idOf).Pairwise fun u v =>
      utf8Bytes u < utf8Bytes v := by
  have hnet := simpleEnds_ofSnapshot s
  rcases (mem_componentsWithout hnet removed).mp
    (reported_subset hnet removed config hgroup) with ⟨c, rfl⟩
  exact map_idOf_members_ascending c

/-- Two cliques that one edge joins are split at this edge, by one cut. -/
theorem detectCommunities_twinCliques
    (s : Snapshot) (config : CommunityConfig) {left right : List String}
    {x y : String}
    (htwin : s.TwinCliques left right x y)
    (hleft : 2 ≤ left.length)
    (hright : 2 ≤ right.length)
    (htarget : targetCommunities (left.length + right.length) config = 2)
    (hbudget : 1 ≤ config.maxIterations)
    (hmin : config.minSize ≤ min left.length right.length)
    (hmax : 2 ≤ config.maxCommunities) :
    ∃ p, detectCommunities ℚ .live (Network.ofSnapshot s) config = .ok p ∧
      p.Splits (Network.ofSnapshot s) left right x y := by
  have hnet := simpleEnds_ofSnapshot s
  rcases htwin.isTwinCliques with ⟨a, b, rfl, rfl, hcliques⟩
  rcases exists_nextCut?_of_isTwinCliques hcliques (hleft.trans_eq
    htwin.card_left.symm) (hright.trans_eq htwin.card_right.symm)
    with ⟨e, l, hnext, hl, u, v, hends, hbridge⟩
  have hreach := reachable_graphWithout_of_bridge hcliques hl hends hbridge
  have hcuts : (Network.ofSnapshot s).cuts ℚ 1 = [e] := cuts_succ_of_some hnext
  have hlt : e < (Network.ofSnapshot s).linkCount :=
    (mem_linksWithout.mp (mem_linksWithout_of_nextCut? hnext)).1
  have hhalt := haltsAt_one_of_isTwinCliques hcliques hnext hreach
    (lt_min (Nat.zero_lt_of_lt hlt) hbudget)
  rcases Network.exists_haltsAt ℚ hnet config with ⟨k, reason, hhalt', hrun⟩
  rw [htwin.size_eq, htarget] at hhalt'
  rcases hhalt'.unique hhalt with ⟨rfl, rfl⟩
  refine ⟨_, hrun, ?_⟩
  refine
    { stopReason_eq := rfl
      iterations_eq := ?_
      exists_removed_eq := ⟨e, l, ?_, hl, ?_⟩
      componentCount_eq := ?_
      exists_communities_eq := ?_
      ascending :=
        fun group hgroup => Network.map_idOf_ascending_of_mem_reported hgroup }
  · rw [Partition.iterations, partitionAfter, hcuts]
    rfl
  · rw [partitionAfter, hcuts]
    rfl
  · rw [(Prod.mk.inj hends).1, (Prod.mk.inj hends).2]
    rcases Sym2.eq_iff.mp hbridge with ⟨rfl, rfl⟩ | ⟨rfl, rfl⟩
    · rfl
    · exact Sym2.eq_swap
  · rw [partitionAfter, hcuts, length_componentsWithout hnet]
    exact componentCountWithout_eq_two hreach hcliques.mem_left
      hcliques.notMem_left
  · rw [partitionAfter, hcuts]
    exact htwin.exists_map_reported_eq hreach hcliques.mem_left
      hcliques.notMem_left hmin hmax

/-- Two triangles, joined by the edge between `C` and `D`. -/
def trianglesSnapshot : Snapshot where
  nodes := ["A", "B", "C", "D", "E", "F"].map Node.bare
  edges := [Edge.bare "A" "B", Edge.bare "C" "B", Edge.bare "A" "C",
    Edge.bare "D" "E", Edge.bare "E" "F", Edge.bare "F" "D", Edge.bare "C" "D"]
  id_ne_empty := by decide
  ids_nodup := by decide

theorem twinCliques_trianglesSnapshot :
    trianglesSnapshot.TwinCliques ["A", "B", "C"] ["D", "E", "F"] "C" "D" where
  ids_perm := by decide
  mem_left := by decide
  mem_right := by decide
  joined_iff := by decide

theorem detectCommunities_twinCliques_trianglesSnapshot :
    trianglesSnapshot.TwinCliques ["A", "B", "C"] ["D", "E", "F"] "C" "D" ∧
      targetCommunities 6 CommunityConfig.default = 2 ∧
      ∃ p,
        detectCommunities ℚ .live (Network.ofSnapshot trianglesSnapshot)
            CommunityConfig.default = .ok p ∧
        p.Splits (Network.ofSnapshot trianglesSnapshot) ["A", "B", "C"]
          ["D", "E", "F"] "C" "D" :=
  ⟨twinCliques_trianglesSnapshot, by decide, detectCommunities_twinCliques
    trianglesSnapshot CommunityConfig.default twinCliques_trianglesSnapshot (by
      decide) (by decide) (by decide) (by decide) (by decide) (by decide)⟩

end LinkAnalysis
