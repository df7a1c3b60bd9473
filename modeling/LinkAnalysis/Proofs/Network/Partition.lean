import LinkAnalysis.Proofs.Network.Removal

/-!
# Components as lists of nodes

A component is written as the list of its nodes, in ascending order.  The
components found in a network are these lists, each of them once, so every node
stands in exactly one of them.  A plain graph counts the representatives that
remain after its edges have joined their ends, which is the same number.
-/

namespace SimpleGraph.ConnectedComponent

open scoped Classical

variable {n : Nat} {G : SimpleGraph (Fin n)} {c d : G.ConnectedComponent}

/-- The nodes of a component, in ascending order. -/
noncomputable def members (c : G.ConnectedComponent) : List Nat :=
  (List.range n).filter fun v =>
    ∃ hv : v < n, G.connectedComponentMk ⟨v, hv⟩ = c

theorem mem_members {v : Nat} :
    v ∈ c.members ↔ ∃ hv : v < n, G.connectedComponentMk ⟨v, hv⟩ = c := by
  rw [members, List.mem_filter, List.mem_range, decide_eq_true_iff]
  exact and_iff_right_of_imp Exists.fst

theorem val_mem_members {v : Fin n} :
    v.val ∈ c.members ↔ G.connectedComponentMk v = c := by
  rw [mem_members]
  exact ⟨Exists.snd, fun hcomponent => ⟨v.isLt, hcomponent⟩⟩

theorem members_ascending (c : G.ConnectedComponent) :
    c.members.Pairwise (· < ·) :=
  List.pairwise_lt_range.filter _

theorem members_nodup (c : G.ConnectedComponent) : c.members.Nodup :=
  c.members_ascending.imp ne_of_lt

theorem exists_mem_members (c : G.ConnectedComponent) :
    ∃ v : Fin n, v.val ∈ c.members := by
  induction c using SimpleGraph.ConnectedComponent.ind with
  | _ v => exact ⟨v, val_mem_members.mpr rfl⟩

theorem eq_of_mem_members
    {v : Nat}
    (hc : v ∈ c.members)
    (hd : v ∈ d.members) :
    c = d := by
  obtain ⟨_, hc⟩ := mem_members.mp hc
  obtain ⟨_, hd⟩ := mem_members.mp hd
  exact hc.symm.trans hd

theorem members_injective :
    Function.Injective (members : G.ConnectedComponent → List Nat) := by
  intro c d heq
  obtain ⟨v, hv⟩ := c.exists_mem_members
  exact eq_of_mem_members hv (heq ▸ hv)

theorem length_members (c : G.ConnectedComponent) :
    c.members.length = c.supp.ncard := by
  have himage : Fin.val '' c.supp = {v | v ∈ c.members} := by
    ext v
    rw [Set.mem_image, Set.mem_ofPred_eq, mem_members]
    constructor
    · rintro ⟨w, hw, rfl⟩
      exact ⟨w.isLt, hw⟩
    · rintro ⟨hv, hcomponent⟩
      exact ⟨⟨v, hv⟩, hcomponent, rfl⟩
  rw [← Set.ncard_image_of_injective c.supp Fin.val_injective, himage,
    LinkAnalysis.ncard_mem_eq_length c.members_nodup]

/-- Where there are more edges, components lie within larger ones. -/
theorem exists_members_subset
    {H : SimpleGraph (Fin n)}
    (hsub : H ≤ G)
    (c : H.ConnectedComponent) :
    ∃ d : G.ConnectedComponent, c.members ⊆ d.members := by
  refine ⟨c.map (Hom.ofLE hsub), fun v hv => ?_⟩
  rcases mem_members.mp hv with ⟨hlt, rfl⟩
  exact mem_members.mpr ⟨hlt, rfl⟩

/-- A shortest walk stays in one component and passes no node twice. -/
theorem dist_lt_length_members {v w : Fin n} (hreachable : G.Reachable v w) :
    G.dist v w < (G.connectedComponentMk v).members.length := by
  obtain ⟨p, hpath, hlength⟩ := hreachable.exists_path_of_dist
  have hnodup : (p.support.map Fin.val).Nodup :=
    hpath.support_nodup.map Fin.val_injective
  have hsubset :
      p.support.map Fin.val ⊆ (G.connectedComponentMk v).members := by
    intro x hx
    obtain ⟨u, hu, rfl⟩ := List.mem_map.mp hx
    exact val_mem_members.mpr
      (ConnectedComponent.sound (p.takeUntil u hu).reachable.symm)
  have hle := (hnodup.subperm hsubset).length_le
  rw [List.length_map, Walk.length_support, hlength] at hle
  exact hle

/-- A node without neighbours is a component of its own. -/
theorem forall_not_adj_iff {v : Fin n} :
    (∀ w, ¬ G.Adj v w) ↔ (G.connectedComponentMk v).members.length = 1 := by
  have hv : v.val ∈ (G.connectedComponentMk v).members :=
    val_mem_members.mpr rfl
  constructor
  · intro hnone
    have hall : ∀ x ∈ (G.connectedComponentMk v).members, x = v.val := by
      intro x hx
      obtain ⟨hlt, hmk⟩ := mem_members.mp hx
      obtain ⟨p⟩ := ConnectedComponent.exact hmk.symm
      cases p with
      | nil => rfl
      | cons hadj _ => exact absurd hadj (hnone _)
    have hle := ((members_nodup _).subperm fun x hx =>
      List.mem_singleton.mpr (hall x hx)).length_le
    exact Nat.le_antisymm hle (List.length_pos_of_mem hv)
  · intro hlength w hadj
    have hw : w.val ∈ (G.connectedComponentMk v).members :=
      val_mem_members.mpr (ConnectedComponent.sound hadj.reachable.symm)
    obtain ⟨x, hx⟩ := List.length_eq_one_iff.mp hlength
    rw [hx, List.mem_singleton] at hv hw
    exact hadj.ne (Fin.ext (hv.trans hw.symm))

end SimpleGraph.ConnectedComponent

namespace LinkAnalysis

open scoped Classical

open SimpleGraph.ConnectedComponent (members mem_members)

/-! ## Classes of joined nodes -/

section Classes

variable {n : Nat} {G : SimpleGraph (Fin n)}

theorem filter_joinedIn_eq_members (v : Fin n) :
    ((List.range n).filter fun w => JoinedIn G v w) =
      (G.connectedComponentMk v).members := by
  apply List.filter_congr
  intro w _
  rw [decide_eq_decide]
  constructor
  · intro hjoined
    obtain ⟨_, hw, hreach⟩ := hjoined
    exact ⟨hw, SimpleGraph.ConnectedComponent.sound hreach.symm⟩
  · intro hexists
    obtain ⟨hw, heq⟩ := hexists
    exact ⟨v.isLt, hw, (SimpleGraph.ConnectedComponent.exact heq).symm⟩

theorem mem_classes_joinedIn {group : List Nat} :
    group ∈ classes (JoinedIn G) n ↔
      ∃ c : G.ConnectedComponent, c.members = group := by
  rw [classes, List.mem_map]
  constructor
  · intro hexists
    obtain ⟨v, hv, heq⟩ := hexists
    have hlt := (mem_firsts.mp hv).1
    exact ⟨G.connectedComponentMk ⟨v, hlt⟩,
      (filter_joinedIn_eq_members ⟨v, hlt⟩).symm.trans heq⟩
  · intro hexists
    obtain ⟨c, heq⟩ := hexists
    obtain ⟨⟨v, hfirst⟩, rfl⟩ := (connectedComponentMk_bijective G).2 c
    refine ⟨v.val, mem_firsts.mpr ⟨v.isLt, fun w hw hjoined => ?_⟩, ?_⟩
    · obtain ⟨hlt, _, hreach⟩ := hjoined
      exact hfirst ⟨w, hlt⟩ hw hreach
    · exact (filter_joinedIn_eq_members v).trans heq

theorem classes_joinedIn_nodup (G : SimpleGraph (Fin n)) :
    (classes (JoinedIn G) n).Nodup := by
  apply List.Nodup.map_on
  · intro v hv w hw heq
    obtain ⟨hvlt, hvfirst⟩ := mem_firsts.mp hv
    obtain ⟨hwlt, hwfirst⟩ := mem_firsts.mp hw
    have hclass : (G.connectedComponentMk ⟨v, hvlt⟩).members =
        (G.connectedComponentMk ⟨w, hwlt⟩).members := by
      rw [← filter_joinedIn_eq_members, ← filter_joinedIn_eq_members]
      exact heq
    have hreach := SimpleGraph.ConnectedComponent.exact
      (SimpleGraph.ConnectedComponent.members_injective hclass)
    rcases Nat.lt_trichotomy v w with hlt | heq | hlt
    · exact absurd ⟨hvlt, hwlt, hreach⟩ (hwfirst v hlt)
    · exact heq
    · exact absurd ⟨hwlt, hvlt, hreach.symm⟩ (hvfirst w hlt)
  · exact List.nodup_range.filter _

/-- Every node stands in exactly one component. -/
theorem flatten_classes_joinedIn_perm (G : SimpleGraph (Fin n)) :
    (classes (JoinedIn G) n).flatten.Perm (List.range n) := by
  have hmem : ∀ group ∈ classes (JoinedIn G) n, ∃ c : G.ConnectedComponent,
      c.members = group :=
    fun group => mem_classes_joinedIn.mp
  apply (List.perm_ext_iff_of_nodup ?_ List.nodup_range).mpr
  · intro v
    rw [List.mem_flatten, List.mem_range]
    constructor
    · intro hexists
      obtain ⟨group, hgroup, hv⟩ := hexists
      obtain ⟨c, rfl⟩ := hmem group hgroup
      exact (mem_members.mp hv).1
    · intro hv
      exact ⟨_, mem_classes_joinedIn.mpr ⟨G.connectedComponentMk ⟨v, hv⟩, rfl⟩,
        mem_members.mpr ⟨hv, rfl⟩⟩
  · rw [List.nodup_flatten]
    constructor
    · intro group hgroup
      obtain ⟨c, rfl⟩ := hmem group hgroup
      exact c.members_nodup
    · apply (classes_joinedIn_nodup G).imp_of_mem
      intro group other hgroup hother hne v hv hv'
      obtain ⟨c, rfl⟩ := hmem group hgroup
      obtain ⟨d, rfl⟩ := hmem other hother
      exact hne (congrArg members
        (SimpleGraph.ConnectedComponent.eq_of_mem_members hv hv'))

end Classes

/-! ## Components of a network -/

namespace Network

variable {net : Network} (hnet : SimpleEnds net.size net.ends)
  (removed : List Nat)

include hnet

theorem componentsWithout_eq_classes :
    net.componentsWithout removed =
      classes (JoinedIn (net.graphWithout removed)) net.size :=
  components_ofEnds (hnet.inRange (activeLinks_linksWithout net removed))

theorem mem_componentsWithout {group : List Nat} :
    group ∈ net.componentsWithout removed ↔
      ∃ c : (net.graphWithout removed).ConnectedComponent,
        c.members = group := by
  rw [componentsWithout_eq_classes hnet, mem_classes_joinedIn]

theorem flatten_componentsWithout_perm :
    (net.componentsWithout removed).flatten.Perm (List.range net.size) := by
  rw [componentsWithout_eq_classes hnet]
  exact flatten_classes_joinedIn_perm _

theorem lt_of_mem_componentsWithout
    {group : List Nat}
    (hgroup : group ∈ net.componentsWithout removed)
    {v : Nat}
    (hv : v ∈ group) :
    v < net.size := by
  obtain ⟨c, rfl⟩ := (mem_componentsWithout hnet removed).mp hgroup
  exact (mem_members.mp hv).1

end Network

/-! ## Counting representatives -/

theorem length_eraseDups_map_range (f : Nat → Nat) (k : Nat) :
    ((List.range k).map f).eraseDups.length =
      (classes (fun v w => f v = f w) k).length := by
  induction k with
  | zero => simp [classes, firsts]
  | succ k ih =>
      rw [classes, List.length_map] at ih ⊢
      rw [List.range_succ, List.map_append, List.map_singleton,
        List.eraseDups_append, List.length_append, ih, firsts_succ,
        List.length_append]
      apply congrArg (_ + ·)
      by_cases hmem : f k ∈ (List.range k).map f
      · have hold : ¬ ∀ w < k, ¬ f w = f k := by
          intro hnew
          obtain ⟨w, hw, heq⟩ := List.mem_map.mp hmem
          exact hnew w (List.mem_range.mp hw) heq
        rw [if_neg hold, List.removeAll, List.filter_singleton,
          List.elem_eq_mem, decide_eq_true hmem]
        rfl
      · have hnew : ∀ w < k, ¬ f w = f k := by
          intro w hw heq
          exact hmem (List.mem_map.mpr ⟨w, List.mem_range.mpr hw, heq⟩)
        rw [if_pos hnew, List.removeAll, List.filter_singleton,
          List.elem_eq_mem, decide_eq_false hmem]
        rfl

section PlainGraphs

variable {σ : Type} {uf : UnionFind σ}
  {fits : Nat → σ → Prop} {rep : σ → Nat → Nat}

def PlainGraph.pairs (g : PlainGraph) : List (Nat × Nat) :=
  g.edges.toList.map fun e => (e.1, e.2.1)

/-- The representatives that remain stand for the classes of nodes that chains
of edges join. -/
theorem PlainGraph.componentCountBy_eq
    (huf : uf.Lawful fits rep)
    {g : PlainGraph}
    (hpairs : ∀ pair ∈ g.pairs, pair.1 < g.nodeCount ∧ pair.2 < g.nodeCount) :
    g.componentCountBy uf = (classes (Relation.EqvGen fun v w =>
          (v, w) ∈ g.pairs) g.nodeCount).length := by
  have hsets : g.edges.foldl (fun sets e => uf.union sets e.1 e.2.1)
        (uf.singletons g.nodeCount) = uf.joinPairs g.nodeCount g.pairs := by
    rw [UnionFind.joinPairs, pairs, List.foldl_map, Array.foldl_toList]
  have hfind : ((List.range g.nodeCount).map fun v =>
        (uf.find (uf.joinPairs g.nodeCount g.pairs) v).1) =
      (List.range g.nodeCount).map
        (rep (uf.joinPairs g.nodeCount g.pairs)) := by
    apply List.map_congr_left
    intro v hv
    exact huf.find_eq (huf.fits_joinPairs hpairs) (List.mem_range.mp hv)
  rw [componentCountBy, hsets, hfind, length_eraseDups_map_range]
  apply congrArg List.length
  apply classes_congr
  intro v hv w hw
  exact huf.rep_joinPairs hpairs hv hw

namespace Network

variable (s : Snapshot)

theorem mem_pairs_ofSnapshot {v w : Nat} :
    (v, w) ∈ (ofSnapshot s).graph.pairs ↔
      (v, w) ∈ (ofSnapshot s).adjacency.ascending := by
  have hpairs : (ofSnapshot s).graph.pairs =
      (ofSnapshot s).links.toList.map Link.ends := by
    rw [PlainGraph.pairs, graph_ofSnapshot, List.map_map]
    calc ((ofSnapshot s).links.toList.zipIdx.map _)
        = ((ofSnapshot s).links.toList.zipIdx.map Prod.fst).map Link.ends := by
          rw [List.map_map]
          rfl
      _ = (ofSnapshot s).links.toList.map Link.ends := by
          rw [List.zipIdx_map_fst]
  rw [hpairs, List.mem_map, Adjacency.mem_ascending, size_adjacency_ofSnapshot]
  constructor
  · intro hexists
    obtain ⟨l, hl, hends⟩ := hexists
    obtain ⟨rfl, rfl⟩ := Prod.mk.inj hends
    obtain ⟨hlt, hhigh, -⟩ := link_ofSnapshot s (Array.mem_toList_iff.mp hl)
    obtain ⟨position, hget⟩ := List.mem_iff_getElem?.mp hl
    rw [Array.getElem?_toList] at hget
    exact ⟨hlt.trans hhigh, hlt, position,
      (mem_neighbors_ofSnapshot_iff s).mpr ⟨l, hget, Or.inl rfl⟩⟩
  · intro hboth
    obtain ⟨-, hlt, position, hmem⟩ := hboth
    obtain ⟨l, hget, hends⟩ := (mem_neighbors_ofSnapshot_iff s).mp hmem
    have hl := Array.mem_of_getElem? hget
    refine ⟨l, Array.mem_toList_iff.mpr hl, hends.resolve_right fun hback => ?_⟩
    obtain ⟨rfl, rfl⟩ := Prod.mk.inj hback
    exact hlt.asymm (link_ofSnapshot s hl).1

theorem lt_of_mem_pairs_ofSnapshot
    {pair : Nat × Nat}
    (hpair : pair ∈ (ofSnapshot s).graph.pairs) :
    pair.1 < (ofSnapshot s).size ∧ pair.2 < (ofSnapshot s).size := by
  have hascending := (mem_pairs_ofSnapshot s).mp hpair
  rw [adjacency_ofSnapshot] at hascending
  exact lt_of_mem_ascending ((simpleEnds_ofSnapshot s).inRange
    (activeLinks_range (ofSnapshot s))) hascending

/-- The plain graph of a network has as many components as its links, whatever
partition is used. -/
theorem componentCountBy_ofSnapshot (huf : uf.Lawful fits rep) :
    (ofSnapshot s).graph.componentCountBy uf =
      (ofSnapshot s).componentCountWithout [] := by
  have hrange :=
    (simpleEnds_ofSnapshot s).inRange (activeLinks_range (ofSnapshot s))
  have hadjacency : (ofSnapshot s).adjacency =
      Adjacency.ofEnds (ofSnapshot s).size (ofSnapshot s).ends
        (List.range (ofSnapshot s).linkCount) := adjacency_ofSnapshot s
  have hpairs : ∀ pair ∈ (ofSnapshot s).graph.pairs,
      pair.1 < (ofSnapshot s).graph.nodeCount ∧
      pair.2 < (ofSnapshot s).graph.nodeCount :=
    fun _ hpair => lt_of_mem_pairs_ofSnapshot s hpair
  rw [PlainGraph.componentCountBy_eq huf hpairs, componentCountWithout,
    graphWithout, linksWithout_nil, graphOf, ← length_classes_joinedIn]
  apply congrArg List.length
  apply classes_congr
  intro v hv w _
  rw [← eqvGen_ascending_iff hrange hv, ← hadjacency]
  simp only [mem_pairs_ofSnapshot]

end Network

end PlainGraphs

end LinkAnalysis
