import LinkAnalysis.Proofs.Network.Canonical
import LinkAnalysis.Proofs.Route.Search
import Mathlib

/-!
# Enumerations of simple routes

The simple routes of a network are the paths of its graph.  An enumeration lists
paths up to a length, each of them once and the shorter ones first; unless a
budget cuts it short it lists all of them.
-/

namespace LinkAnalysis

open Adjacency

/-! ## Routes are walks -/

section Walks

variable {n : Nat} {ends : Array (Nat × Nat)} {active : List Nat} {u v : Fin n}
  {route : List Nat}

theorem mem_nextOf_ofEnds_iff (hends : SimpleEnds n ends) :
    v.val ∈ (ofEnds n ends active).nextOf u.val ↔
      (linkGraph n ends active).Adj u v := by
  rw [mem_nextOf, linkGraph_adj_iff_exists]
  constructor
  · rintro ⟨position, hstep⟩
    exact ⟨fun heq => hends.ne_of_mem_neighbors hstep
      (congrArg Fin.val heq.symm), position, hstep⟩
  · exact And.right

/-- A route is the list of the nodes of a walk. -/
theorem route_ofEnds_iff_exists_walk (hends : SimpleEnds n ends) :
    (ofEnds n ends active).Route u v route ↔
      ∃ p : (linkGraph n ends active).Walk u v,
        p.support.map Fin.val = route := by
  constructor
  · intro hroute
    induction route generalizing u with
    | nil => exact absurd hroute not_route_nil
    | cons first rest ih =>
        obtain ⟨rfl, ⟨rfl, heq⟩ | ⟨w, hstep, hrest⟩⟩ := route_cons_iff.mp hroute
        · obtain rfl := Fin.val_injective heq
          exact ⟨.nil, rfl⟩
        · obtain ⟨link, hlink⟩ := mem_nextOf.mp hstep
          have hw : w < n := by
            obtain ⟨-, -, hget | hget⟩ := mem_neighbors_ofEnds.mp hlink
            · exact hends.high_lt hget
            · exact (hends.low_lt_high hget).trans u.isLt
          obtain ⟨p, rfl⟩ := ih (u := ⟨w, hw⟩) hrest
          exact ⟨.cons ((mem_nextOf_ofEnds_iff hends (v := ⟨w, hw⟩)).mp hstep)
            p, rfl⟩
  · rintro ⟨p, rfl⟩
    induction p with
    | nil => exact route_cons_iff.mpr ⟨rfl, Or.inl ⟨rfl, rfl⟩⟩
    | cons hadj p ih =>
        rw [SimpleGraph.Walk.support_cons, List.map_cons]
        exact route_cons_iff.mpr ⟨rfl,
          Or.inr ⟨_, (mem_nextOf_ofEnds_iff hends).mpr hadj, ih⟩⟩

theorem simpleRoute_ofEnds_iff_exists_isPath (hends : SimpleEnds n ends) :
    (ofEnds n ends active).SimpleRoute u v route ↔
      ∃ p : (linkGraph n ends active).Walk u v,
        p.IsPath ∧ p.support.map Fin.val = route := by
  have hpath : ∀ p : (linkGraph n ends active).Walk u v,
      (p.support.map Fin.val).Nodup ↔ p.IsPath := fun p =>
    (List.nodup_map_iff Fin.val_injective).trans p.isPath_def.symm
  constructor
  · intro hroute
    obtain ⟨p, rfl⟩ := (route_ofEnds_iff_exists_walk hends).mp hroute.toRoute
    exact ⟨p, (hpath p).mp hroute.nodup, rfl⟩
  · rintro ⟨p, hp, rfl⟩
    exact ⟨(route_ofEnds_iff_exists_walk hends).mpr ⟨p, rfl⟩, (hpath p).mpr hp⟩

end Walks

/-! ## Enumerations -/

namespace Network

theorem ascending_adjacency_ofSnapshot (s : Snapshot) :
    (ofSnapshot s).adjacency.Ascending := by
  rw [adjacency_ofSnapshot]
  intro v
  rw [nextOf, List.pairwise_map]
  exact (simpleEnds_ofSnapshot s).neighbors_ascending (activeLinks_range _) v

theorem simpleRoute_ofSnapshot_iff
    {s : Snapshot} {u v : Fin (ofSnapshot s).size} {route : List Nat} :
    (ofSnapshot s).adjacency.SimpleRoute u v route ↔
      ∃ p : (ofSnapshot s).wholeGraph.Walk u v,
        p.IsPath ∧ p.support.map Fin.val = route := by
  rw [adjacency_ofSnapshot]
  exact simpleRoute_ofEnds_iff_exists_isPath (simpleEnds_ofSnapshot s)

end Network

theorem length_map_support
    {n : Nat} {G : SimpleGraph (Fin n)} {u v : Fin n} (p : G.Walk u v) :
    (p.support.map Fin.val).length = p.length + 1 := by
  rw [List.length_map, SimpleGraph.Walk.length_support]

/-- The routes that an exhaustive search completes are the paths of the network
up to the depth. -/
theorem mem_routesFrom_ofSnapshot_iff
    {s : Snapshot} {u v : Fin (Network.ofSnapshot s).size} {depth : Nat}
    {path : List Nat} :
    path ∈ (Network.ofSnapshot s).adjacency.routesFrom v depth [] u ↔
      ∃ p : (Network.ofSnapshot s).wholeGraph.Walk u v,
        p.IsPath ∧ p.length ≤ depth ∧ p.support.map Fin.val = path := by
  rw [mem_routesFrom, Network.simpleRoute_ofSnapshot_iff]
  constructor
  · rintro ⟨⟨p, hp, rfl⟩, -, hlength⟩
    rw [length_map_support] at hlength
    exact ⟨p, hp, by omega, rfl⟩
  · rintro ⟨p, hp, hdepth, rfl⟩
    refine ⟨⟨p, hp, rfl⟩, fun _ _ => List.not_mem_nil, ?_⟩
    rw [length_map_support]
    omega

/-- The paths listed are paths of the graph with at most `depth` links, each of
them once, ordered by length and then node by node.  Without a cut no such path
is missing. -/
structure Enumeration.ListsPaths (net : Network) (u v : Fin net.size)
    (depth : Nat) (e : Enumeration) : Prop where
  simpleRoute : ∀ path ∈ e.paths, net.adjacency.SimpleRoute u v path
  length_le : ∀ path ∈ e.paths, path.length ≤ depth + 1
  exists_isPath : ∀ path ∈ e.paths, ∃ p : net.wholeGraph.Walk u v,
    p.IsPath ∧ p.length ≤ depth ∧ p.support.map Fin.val = path
  nodup : e.paths.Nodup
  ascending : e.paths.Pairwise fun x y =>
    x.length < y.length ∨ x.length = y.length ∧ x < y
  complete : e.truncated = false → ∀ p : net.wholeGraph.Walk u v, p.IsPath →
    p.length ≤ depth → p.support.map Fin.val ∈ e.paths

/-- While the token is live an enumeration between different nodes succeeds, and
it lists paths of the network, all of them up to the depth unless a budget cuts
it short. -/
theorem simplePaths_listsPaths
    (s : Snapshot) {u v : Fin (Network.ofSnapshot s).size}
    (hne : u ≠ v)
    (limits : PathConfig) :
    ∃ e, simplePaths .live (Network.ofSnapshot s).adjacency u v limits = .ok e ∧
      e.ListsPaths (Network.ofSnapshot s) u v limits.maxDepth := by
  have hclosed := Network.closed_adjacency_ofSnapshot s
  have hu := Network.lt_size_adjacency_ofSnapshot s u
  obtain ⟨e, found, he, hpaths, hfirst, hall⟩ :=
    simplePaths_live hclosed hu (fun heq => hne (Fin.val_injective heq)) limits
  have hnodup : found.Nodup :=
    ((routesFrom_ascending (Network.ascending_adjacency_ofSnapshot s) _ _ _).imp
      ne_of_lt).sublist hfirst.sublist
  have hlisted : ∀ path ∈ e.paths, path ∈
      (Network.ofSnapshot s).adjacency.routesFrom v limits.maxDepth [] u := by
    intro path hpath
    rw [hpaths, List.mem_mergeSort] at hpath
    exact hfirst.subset hpath
  refine ⟨e, he,
    { simpleRoute := fun path hmem => (mem_routesFrom.mp (hlisted path hmem)).1
      length_le := fun path hmem => (mem_routesFrom.mp (hlisted path hmem)).2.2
      exists_isPath :=
        fun path hmem => mem_routesFrom_ofSnapshot_iff.mp (hlisted path hmem)
      nodup := ?_
      ascending := ?_
      complete := fun htruncated p hp hdepth => ?_ }⟩
  · rw [hpaths]
    exact (List.mergeSort_perm found shorterLe).nodup_iff.mpr hnodup
  · rw [hpaths]
    exact shorterLe_mergeSort_strict hnodup
  · rw [hpaths, List.mem_mergeSort, hall htruncated]
    exact mem_routesFrom_ofSnapshot_iff.mpr ⟨p, hp, hdepth, rfl⟩

/-- A small case: a ring of three nodes, with a short and a long way from `a` to
`c`. -/
def ringSnapshot : Snapshot where
  nodes := [Node.bare "c", Node.bare "b", Node.bare "a"]
  edges := [Edge.bare "a" "b", Edge.bare "c" "b", Edge.bare "c" "a"]
  id_ne_empty := by decide
  ids_nodup := by decide

theorem simplePaths_listsPaths_ringSnapshot :
    ∃ u v : Fin (Network.ofSnapshot ringSnapshot).size,
      u ≠ v ∧ ∃ e,
        simplePaths .live (Network.ofSnapshot ringSnapshot).adjacency u v
            PathConfig.default = .ok e ∧
        e.paths = [[0, 2], [0, 1, 2]] ∧
        e.truncated = false ∧
        e.ListsPaths (Network.ofSnapshot ringSnapshot) u v
          PathConfig.default.maxDepth := by
  have hsize : (Network.ofSnapshot ringSnapshot).size = 3 := by cbv
  have hpaths : simplePaths .live (Network.ofSnapshot ringSnapshot).adjacency 0
        2 PathConfig.default = .ok ⟨[[0, 2], [0, 1, 2]], false, 4⟩ := by
    cbv
  have hne : (⟨0, by omega⟩ : Fin (Network.ofSnapshot ringSnapshot).size) ≠
      ⟨2, by omega⟩ :=
    fun heq => absurd (Fin.mk.inj heq) (by decide)
  obtain ⟨e, he, hlists⟩ :=
    simplePaths_listsPaths ringSnapshot hne PathConfig.default
  obtain rfl := Except.ok.inj (he.symm.trans hpaths)
  exact ⟨_, _, hne, _, he, rfl, rfl, hlists⟩

end LinkAnalysis
