import LinkAnalysis.Proofs.Rational
import LinkAnalysis.Proofs.Route.Enumeration
import LinkAnalysis.Proofs.Route.Shortest
import LinkAnalysis.Report.Analysis
import Mathlib

/-!
# Simple routes and shortest routes

Two reports list routes between two nodes: one the simple routes up to a length,
the other the shortest routes.  Both sort their lists, the first one by length
before all.  Where neither list is cut short, the shortest routes come first
among the simple ones, in the same order.
-/

namespace LinkAnalysis

open Geodesics

/-! ## On an adjacency -/

section Lists

variable {α : Type} [NatCast α] [Add α] {adj : Adjacency} {a b : Nat}

/-- No route is shorter than the distance, and without a distance there is
none. -/
theorem distanceTo_le_of_mem_routesFrom
    (hclosed : adj.Closed)
    (ha : a < adj.size)
    {depth : Nat} {route : List Nat}
    (hmem : route ∈ adj.routesFrom b depth [] a) :
    ∃ d,
      (ofSource adj a : Geodesics α).distanceTo b = some d ∧
      d + 1 ≤ route.length ∧
      route.length ≤ depth + 1 := by
  obtain ⟨hroute, -, hdepth⟩ := Adjacency.mem_routesFrom.mp hmem
  obtain ⟨d, hd, hle⟩ :=
    distanceTo_le_of_route (α := α) hclosed ha hroute.toRoute
  exact ⟨d, hd, hle, hdepth⟩

/-- The ways back are those simple routes that are not longer than the
distance. -/
theorem routesBack_perm_filter_routesFrom
    (hclosed : adj.Closed)
    (hascending : adj.Ascending)
    (ha : a < adj.size)
    {depth d : Nat}
    (hle : d ≤ depth)
    (hd : (ofSource adj a : Geodesics α).distanceTo b = some d) :
    ((ofSource adj a : Geodesics α).routesBack d b).Perm
      ((adj.routesFrom b depth [] a).filter fun route =>
        !decide (d + 1 < route.length)) := by
  have hnodup := routesBack_ofSource_nodup (α := α) hclosed ha hascending d b
  have hnodup' : (adj.routesFrom b depth [] a).Nodup :=
    (Adjacency.routesFrom_ascending hascending depth [] a).imp ne_of_lt
  apply (List.perm_ext_iff_of_nodup hnodup (hnodup'.filter _)).mpr
  intro route
  rw [mem_routesBack_iff_simpleRoute hclosed ha hd, List.mem_filter]
  constructor
  · rintro ⟨hroute, hlength⟩
    refine ⟨Adjacency.mem_routesFrom.mpr ⟨hroute,
        fun _ _ => List.not_mem_nil, ?_⟩, ?_⟩
    · omega
    · simp [hlength]
  · rintro ⟨hmem, hlength⟩
    obtain ⟨d', hd', hge, -⟩ :=
      distanceTo_le_of_mem_routesFrom (α := α) hclosed ha hmem
    rw [hd, Option.some_inj] at hd'
    simp only [Bool.not_eq_true', decide_eq_false_iff_not] at hlength
    exact ⟨(Adjacency.mem_routesFrom.mp hmem).1, by omega⟩

/-- Sorted by length, the simple routes start with the shortest ones. -/
theorem mergeSort_routesFrom_eq
    (hclosed : adj.Closed)
    (hascending : adj.Ascending)
    (ha : a < adj.size)
    {depth d : Nat}
    (hle : d ≤ depth)
    (hd : (ofSource adj a : Geodesics α).distanceTo b = some d) :
    (adj.routesFrom b depth [] a).mergeSort shorterLe =
      ((ofSource adj a : Geodesics α).routesBack d b).mergeSort routeLe ++
        ((adj.routesFrom b depth [] a).filter fun route =>
            decide (d + 1 < route.length)).mergeSort shorterLe := by
  have hlengths : ∀ route ∈
        ((ofSource adj a : Geodesics α).routesBack d b).mergeSort routeLe,
      route.length = d + 1 := by
    intro route hroute
    rw [List.mem_mergeSort,
      mem_routesBack_iff_simpleRoute hclosed ha hd] at hroute
    exact hroute.2
  apply mergeSort_shorterLe_eq
  · have hshortest :=
      routesBack_perm_filter_routesFrom hclosed hascending ha hle hd
    refine ((List.mergeSort_perm _ _).append (List.mergeSort_perm _ _)).trans ?_
    refine (hshortest.append_right _).trans (List.perm_append_comm.trans ?_)
    exact List.filter_append_perm
      (fun route : List Nat => decide (d + 1 < route.length)) _
  · rw [List.pairwise_append]
    refine ⟨?_, shorterLe_mergeSort_pairwise _, fun x hx y hy => ?_⟩
    · refine (routeLe_mergeSort_pairwise _).imp_of_mem fun {x y} hx hy hxy => ?_
      exact shorterLe_iff.mpr
        (Or.inr ⟨(hlengths x hx).trans (hlengths y hy).symm, hxy⟩)
    · rw [List.mem_mergeSort, List.mem_filter] at hy
      rw [shorterLe_iff, hlengths x hx]
      exact Or.inl (of_decide_eq_true hy.2)

end Lists

/-! ## On the reports -/

section Reports

variable {s : Snapshot} {x y : String}

/-- Two different known ids are found as the two ends of a route. -/
theorem Network.exists_endpoints
    (hx : x ∈ s.nodes.map Node.id)
    (hy : y ∈ s.nodes.map Node.id)
    (hne : x ≠ y) :
    ∃ a b,
      (Network.ofSnapshot s).endpoints x y = .ok (a, b) ∧
      a ≠ b ∧
      a < (Network.ofSnapshot s).adjacency.size := by
  have hnumbers := numbers_ofSnapshot s
  rw [← (sortedIds_perm s).mem_iff, List.mem_iff_getElem?] at hx hy
  obtain ⟨a, ha⟩ := hx
  obtain ⟨b, hb⟩ := hy
  refine ⟨a, b, ?_, ?_, ?_⟩
  · rw [endpoints, indexOf?, indexOf?, (hnumbers x a).mpr ha,
      (hnumbers y b).mpr hb]
  · rintro rfl
    exact hne (Option.some_inj.mp (ha.symm.trans hb))
  · rw [size_adjacency_ofSnapshot]
    exact ((getElem?_sortedIds_iff s).mp ha).1

theorem RouteRecord.length_routeRecord (net : Network) (route : List Nat) :
    (net.routeRecord route).length = route.length - 1 := by
  rw [RouteRecord.length, Network.routeRecord, List.length_map]

theorem Analysis.exists_paths
    {α : Type} (config : Config α) {a b : Nat} {e : Enumeration}
    (hends : (Network.ofSnapshot s).endpoints x y = .ok (a, b))
    (he : simplePaths .live (Network.ofSnapshot s).adjacency a b config.paths =
      .ok e) :
    ∃ p,
      Analysis.paths config .live s x y = .ok p ∧
      p.routes = e.paths.map (Network.ofSnapshot s).routeRecord ∧
      p.truncated = e.truncated := by
  unfold Analysis.paths
  simp only [hends, he, bind, Except.bind]
  exact ⟨_, rfl, rfl, rfl⟩

theorem Analysis.exists_shortest
    {α : Type} [Score α] (config : Config α) {a b : Nat}
    (hends : (Network.ofSnapshot s).endpoints x y = .ok (a, b)) :
    ∃ q,
      Analysis.shortest config .live s x y = .ok q ∧
      q.distance =
        (ofSource (Network.ofSnapshot s).adjacency a : Geodesics α).distanceTo
          b ∧
      q.routeCount =
        (ofSource (Network.ofSnapshot s).adjacency a : Geodesics α).countOf b ∧
      q.routes =
        ((ofSource (Network.ofSnapshot s).adjacency a : Geodesics α).routesTo b
            config.paths.maxPaths).1.map (Network.ofSnapshot s).routeRecord ∧
      q.truncated =
        ((ofSource (Network.ofSnapshot s).adjacency a : Geodesics α).routesTo b
            config.paths.maxPaths).2 := by
  unfold Analysis.shortest
  simp only [hends]
  exact ⟨_, rfl, rfl, rfl, rfl, rfl⟩

/-- Between known different nodes both reports exist.  If neither is cut short,
the shortest routes are the first simple routes, the other ones are longer, and
the count is their number.  Nodes that are too far apart have no simple route,
whatever the budgets are. -/
theorem Analysis.paths_agrees_shortest
    (config : Config ℚ)
    (hx : x ∈ s.nodes.map Node.id)
    (hy : y ∈ s.nodes.map Node.id)
    (hne : x ≠ y) :
    ∃ p q,
      Analysis.paths config .live s x y = .ok p ∧
      Analysis.shortest config .live s x y = .ok q ∧
      (∀ d, q.distance = some d → d ≤ config.paths.maxDepth →
        p.truncated = false → q.truncated = false → ∃ longer,
          p.routes = q.routes ++ longer ∧
          (∀ r ∈ q.routes, r.length = d) ∧
          (∀ r ∈ longer, d < r.length) ∧
          (q.routes.length : ℚ) = q.routeCount) ∧
      ((∀ d, q.distance = some d → config.paths.maxDepth < d) →
        p.routes = []) := by
  obtain ⟨a, b, hends, hab, ha⟩ := Network.exists_endpoints hx hy hne
  have hclosed := Network.closed_adjacency_ofSnapshot s
  have hascending := Network.ascending_adjacency_ofSnapshot s
  obtain ⟨e, found, he, hpaths, hfirst, hall⟩ :=
    simplePaths_live hclosed ha hab config.paths
  obtain ⟨p, hp, hroutes, htruncated⟩ := Analysis.exists_paths config hends he
  obtain ⟨q, hq, hdistance, hcount, hshortest, hcut⟩ :=
    Analysis.exists_shortest config hends
  refine ⟨p, q, hp, hq, fun d hd hle hpt hqt => ?_, fun hfar => ?_⟩
  · rw [hdistance] at hd
    rw [htruncated] at hpt
    rw [hcut] at hqt
    rw [routesTo_of_not_truncated hd hqt] at hshortest
    rw [hpaths, hall hpt, mergeSort_routesFrom_eq (α := ℚ) hclosed hascending ha
      hle hd, List.map_append, ← hshortest] at hroutes
    refine ⟨_, hroutes, ?_, ?_, ?_⟩
    · rw [hshortest, List.forall_mem_map]
      intro route hroute
      rw [List.mem_mergeSort,
        mem_routesBack_iff_simpleRoute hclosed ha hd] at hroute
      rw [RouteRecord.length_routeRecord, hroute.2, Nat.add_sub_cancel]
    · rw [List.forall_mem_map]
      intro route hroute
      rw [List.mem_mergeSort, List.mem_filter] at hroute
      have hlonger := of_decide_eq_true hroute.2
      rw [RouteRecord.length_routeRecord]
      omega
    · rw [hshortest, List.length_map, List.length_mergeSort, hcount]
      exact (countOf_eq_length_routesBack hclosed ha hd).symm
  · have hnone : found = [] := by
      refine List.eq_nil_iff_forall_not_mem.mpr fun route hroute => ?_
      obtain ⟨d, hd, hle, hdepth⟩ :=
        distanceTo_le_of_mem_routesFrom (α := ℚ) hclosed ha
          (hfirst.subset hroute)
      have hdeep := hfar d (hdistance.trans hd)
      omega
    rw [hroutes, hpaths, hnone, List.mergeSort_nil, List.map_nil]

end Reports

/-- A small case: two ways from `a` to `d`, and two detours that cross between
them. -/
def crossedSnapshot : Snapshot where
  nodes := [⟨"a", "", ""⟩, ⟨"b", "", ""⟩, ⟨"c", "", ""⟩, ⟨"d", "", ""⟩]
  edges := [⟨"a", "b", "", ""⟩, ⟨"a", "c", "", ""⟩, ⟨"b", "c", "", ""⟩,
    ⟨"b", "d", "", ""⟩, ⟨"c", "d", "", ""⟩]
  id_ne_empty := by decide
  ids_nodup := by decide

theorem Analysis.paths_agrees_shortest_crossedSnapshot :
    ("a" ∈ crossedSnapshot.nodes.map Node.id ∧
        "d" ∈ crossedSnapshot.nodes.map Node.id ∧
        "a" ≠ "d") ∧
      ∃ p q,
        Analysis.paths (Config.default : Config ℚ) .live crossedSnapshot
            "a" "d" = .ok p ∧
        Analysis.shortest (Config.default : Config ℚ) .live crossedSnapshot
            "a" "d" = .ok q ∧
        q.distance = some 2 ∧
        p.truncated = false ∧
        q.truncated = false ∧
        ∃ longer,
          p.routes = q.routes ++ longer ∧
          (∀ r ∈ q.routes, r.length = 2) ∧
          (∀ r ∈ longer, 2 < r.length) ∧
          (q.routes.length : ℚ) = q.routeCount := by
  have ha : "a" ∈ crossedSnapshot.nodes.map Node.id := by decide
  have hd : "d" ∈ crossedSnapshot.nodes.map Node.id := by decide
  have hends :
      (Network.ofSnapshot crossedSnapshot).endpoints "a" "d" = .ok (0, 3) := by
    cbv
  have hsimple : simplePaths .live
        (Network.ofSnapshot crossedSnapshot).adjacency 0 3 PathConfig.default =
      .ok ⟨[[0, 1, 3], [0, 2, 3], [0, 1, 2, 3], [0, 2, 1, 3]], false, 14⟩ := by
    cbv
  have hdistance : (ofSource (Network.ofSnapshot crossedSnapshot).adjacency 0 :
          Geodesics ℚ).distanceTo 3 = some 2 := by cbv
  have hwhole : ((ofSource (Network.ofSnapshot crossedSnapshot).adjacency 0 :
          Geodesics ℚ).routesTo 3 PathConfig.default.maxPaths).2 = false := by
    cbv
  obtain ⟨p, q, hp, hq, hagree, -⟩ :=
    Analysis.paths_agrees_shortest (Config.default : Config ℚ) ha hd (by decide)
  obtain ⟨p', hp', -, hcut⟩ :=
    Analysis.exists_paths (Config.default : Config ℚ) hends hsimple
  obtain ⟨q', hq', hfar, -, -, hcut'⟩ :=
    Analysis.exists_shortest (Config.default : Config ℚ) hends
  obtain rfl := Except.ok.inj (hp.symm.trans hp')
  obtain rfl := Except.ok.inj (hq.symm.trans hq')
  have htwo := hfar.trans hdistance
  refine ⟨⟨ha, hd, by decide⟩, p, q, hp, hq, htwo, hcut, hcut'.trans hwhole, ?_⟩
  exact hagree 2 htwo (by decide) hcut (hcut'.trans hwhole)

end LinkAnalysis
