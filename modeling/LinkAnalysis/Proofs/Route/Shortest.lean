import LinkAnalysis.Proofs.Route.Simple
import LinkAnalysis.Route.Shortest
import Mathlib.Tactic

/-!
# Shortest routes

Walking back from a node along its predecessors gives every shortest route to
it, each of them once: the distances along such a route are 0, 1, 2 and so on.
The number of these routes is the count that the search has added up, and the
walk back stops at a limit without changing what it found before.
-/

namespace LinkAnalysis

/-! ## Collecting up to a limit -/

namespace RouteHaul

/-- What is kept of these routes. -/
def ofRoutes (limit : Nat) (routes : List (List Nat)) : RouteHaul :=
  ⟨min limit routes.length, (routes.take limit).reverse,
    decide (limit < routes.length)⟩

theorem not_truncated_ofRoutes
    {limit : Nat} {routes : List (List Nat)}
    (hle : routes.length ≤ limit) :
    ¬ (ofRoutes limit routes).truncated = true :=
  fun htruncated => absurd (of_decide_eq_true htruncated) hle.not_gt

theorem ofRoutes_append_of_lt
    {limit : Nat} {routes : List (List Nat)}
    (hlt : limit < routes.length)
    (more : List (List Nat)) :
    ofRoutes limit (routes ++ more) = ofRoutes limit routes := by
  have hlonger : limit < (routes ++ more).length := by
    rw [List.length_append]
    omega
  rw [ofRoutes, ofRoutes, min_eq_left hlt.le, min_eq_left hlonger.le,
    List.take_append_of_le_length hlt.le, decide_eq_true hlt,
    decide_eq_true hlonger]

theorem add_ofRoutes
    {limit : Nat} {routes : List (List Nat)}
    (hle : routes.length ≤ limit)
    (route : List Nat) :
    (ofRoutes limit routes).add limit route =
      ofRoutes limit (routes ++ [route]) := by
  have hcount : (ofRoutes limit routes).count = routes.length :=
    min_eq_right hle
  have hlength : (routes ++ [route]).length = routes.length + 1 :=
    List.length_append
  rcases hle.eq_or_lt with heq | hlt
  · rw [add, if_pos (hcount.trans heq), ofRoutes, ofRoutes, hlength,
      List.take_append_of_le_length heq.ge]
    simp [← heq]
  · rw [add, if_neg (by omega), ofRoutes, ofRoutes,
      hlength, List.take_of_length_le hle, List.take_of_length_le (by omega),
      List.reverse_concat]
    have hmin :
        min limit routes.length + 1 = min limit (routes.length + 1) := by
      omega
    have hbelow : ¬ limit < routes.length := by omega
    have hbelow' : ¬ limit < routes.length + 1 := by omega
    rw [hmin, decide_eq_false hbelow, decide_eq_false hbelow']

end RouteHaul

namespace Geodesics

section Walk

variable {α : Type}

/-- All ways back from a node to the source, as routes from the source. -/
def routesBack (g : Geodesics α) : Nat → Nat → List (List Nat)
  | away, head =>
    if head = g.source then [[head]]
    else match away with
      | 0 => []
      | nearer + 1 =>
        ((g.sortedPredecessors head).flatMap fun u => g.routesBack nearer u).map
          (· ++ [head])

variable {g : Geodesics α}

theorem routesBack_source (away : Nat) :
    g.routesBack away g.source = [[g.source]] := by
  unfold routesBack
  rw [if_pos rfl]

theorem routesBack_succ {nearer head : Nat} (hne : head ≠ g.source) :
    g.routesBack (nearer + 1) head =
      ((g.sortedPredecessors head).flatMap fun u => g.routesBack nearer u).map
        (· ++ [head]) := by
  rw [routesBack, if_neg hne]

theorem getLast?_of_mem_routesBack
    {away head : Nat} {route : List Nat}
    (hmem : route ∈ g.routesBack away head) :
    route.getLast? = some head := by
  revert hmem
  fun_cases routesBack g away head with
  | case1 =>
      intro hmem
      rw [List.mem_singleton.mp hmem]
      rfl
  | case2 => exact fun hmem => absurd hmem List.not_mem_nil
  | case3 =>
      intro hmem
      obtain ⟨front, -, rfl⟩ := List.mem_map.mp hmem
      simp

theorem trace_of_truncated
    {limit away head : Nat} {behind : List Nat} {haul : RouteHaul}
    (htruncated : haul.truncated = true) :
    g.trace limit away head behind haul = haul := by
  unfold trace
  rw [if_pos htruncated]

theorem trace_source
    {limit : Nat} {routes : List (List Nat)}
    (hroom : routes.length ≤ limit)
    (away : Nat) (behind : List Nat) :
    g.trace limit away g.source behind (.ofRoutes limit routes) =
      .ofRoutes limit (routes ++ [g.source :: behind]) := by
  unfold trace
  rw [if_neg (RouteHaul.not_truncated_ofRoutes hroom), if_pos rfl,
    RouteHaul.add_ofRoutes hroom]

/-- Routes are collected as they are listed: the predecessors are walked through
in turn, and each adds its own routes. -/
theorem trace_ofRoutes
    (limit away head : Nat) (behind : List Nat) (routes : List (List Nat)) :
    g.trace limit away head behind (.ofRoutes limit routes) = .ofRoutes limit
      (routes ++ (g.routesBack away head).map (· ++ behind)) := by
  fun_induction routesBack g away head generalizing behind routes with
  | case1 away =>
      rcases lt_or_ge limit routes.length with hfull | hroom
      · rw [trace_of_truncated (decide_eq_true hfull),
          RouteHaul.ofRoutes_append_of_lt hfull]
      · exact trace_source hroom away behind
  | case2 head hhead =>
      rw [trace, if_neg hhead, ite_self, List.map_nil, List.append_nil]
  | case3 head hhead nearer ih =>
      rcases lt_or_ge limit routes.length with hfull | hroom
      · rw [trace_of_truncated (decide_eq_true hfull),
          RouteHaul.ofRoutes_append_of_lt hfull]
      · rw [trace, if_neg (RouteHaul.not_truncated_ofRoutes hroom),
          if_neg hhead]
        clear hroom
        induction g.sortedPredecessors head generalizing routes with
        | nil => simp
        | cons u others ih' =>
            rw [List.foldl_cons, ih, ih', List.flatMap_cons]
            simp [List.append_assoc, Function.comp_def]

theorem routesTo_eq
    {target limit away : Nat}
    (haway : g.distanceTo target = some away)
    (hlimit : limit ≠ 0) :
    g.routesTo target limit =
      (((g.routesBack away target).take limit).mergeSort routeLe,
        decide (limit < (g.routesBack away target).length)) := by
  have hstart : (⟨0, [], false⟩ : RouteHaul) = .ofRoutes limit [] := by
    simp [RouteHaul.ofRoutes]
  rw [routesTo, haway]
  simp only [if_neg hlimit, hstart, trace_ofRoutes]
  simp [RouteHaul.ofRoutes]

/-- A list that is not cut short holds all ways back. -/
theorem routesTo_of_not_truncated
    {target limit away : Nat}
    (haway : g.distanceTo target = some away)
    (hwhole : (g.routesTo target limit).2 = false) :
    (g.routesTo target limit).1 =
      (g.routesBack away target).mergeSort routeLe := by
  have hlimit : limit ≠ 0 := by
    rintro rfl
    rw [routesTo, haway] at hwhole
    simp at hwhole
  rw [routesTo_eq haway hlimit] at hwhole ⊢
  rw [List.take_of_length_le (not_lt.mp (of_decide_eq_false hwhole))]

end Walk

/-! ## The ways back in a finished search -/

section Found

variable {α : Type} [NatCast α] [Add α] {adj : Adjacency} {s : Nat}

theorem mem_sortedPredecessors_ofSource
    (hclosed : adj.Closed)
    (hs : s < adj.size)
    {v k : Nat}
    (hv : (ofSource adj s : Geodesics α).distanceTo v = some (k + 1))
    {u : Nat} :
    u ∈ (ofSource adj s : Geodesics α).sortedPredecessors v ↔
      v ∈ adj.nextOf u ∧
        (ofSource adj s : Geodesics α).distanceTo u = some k := by
  rw [sortedPredecessors, List.mem_mergeSort, List.mem_map,
    Adjacency.mem_nextOf]
  constructor
  · rintro ⟨step, hstep, rfl⟩
    obtain ⟨hlink, k', hnear, hfar⟩ :=
      (mem_predecessorsOf_ofSource hclosed hs).mp hstep
    obtain rfl : k = k' := by simpa [hv] using hfar
    exact ⟨⟨step.2, hlink⟩, hnear⟩
  · rintro ⟨⟨link, hlink⟩, hnear⟩
    exact ⟨(u, link),
      (mem_predecessorsOf_ofSource hclosed hs).mpr ⟨hlink, k, hnear, hv⟩, rfl⟩

theorem routesBack_ofSource_zero
    (hclosed : adj.Closed)
    (hs : s < adj.size) :
    (ofSource adj s : Geodesics α).routesBack 0 s = [[s]] := by
  have hback := routesBack_source (g := (ofSource adj s : Geodesics α)) 0
  rwa [source_ofSource hclosed hs] at hback

theorem routesBack_ofSource_succ
    (hclosed : adj.Closed)
    (hs : s < adj.size)
    {v k : Nat}
    (hv : (ofSource adj s : Geodesics α).distanceTo v = some (k + 1)) :
    (ofSource adj s : Geodesics α).routesBack (k + 1) v =
      (((ofSource adj s : Geodesics α).sortedPredecessors v).flatMap fun u =>
          (ofSource adj s : Geodesics α).routesBack k u).map (· ++ [v]) := by
  apply routesBack_succ
  rw [source_ofSource hclosed hs]
  exact ne_source_of_distanceTo_ofSource hclosed hs hv

/-- The node before the last is reached one link sooner, and not sooner than
that. -/
theorem distanceTo_ofSource_of_next
    (hclosed : adj.Closed)
    (hs : s < adj.size)
    {u v away : Nat}
    (hv : (ofSource adj s : Geodesics α).distanceTo v = some (away + 1))
    (hwalk : adj.Walk s away u)
    (hstep : v ∈ adj.nextOf u) :
    (ofSource adj s : Geodesics α).distanceTo u = some away := by
  obtain ⟨k, hk, hle⟩ :=
    distanceTo_ofSource_le_of_walk (α := α) hclosed hs hwalk
  obtain ⟨link, hlink⟩ := Adjacency.mem_nextOf.mp hstep
  obtain ⟨k', hk', hle'⟩ := distanceTo_ofSource_le_of_walk (α := α) hclosed hs
    ((walk_of_distanceTo_ofSource hclosed hs hk).snoc hlink)
  rw [hv, Option.some_inj] at hk'
  obtain rfl : k = away := by omega
  exact hk

/-- No route is shorter than the distance says. -/
theorem distanceTo_le_of_route
    (hclosed : adj.Closed)
    (hs : s < adj.size)
    {v : Nat} {route : List Nat}
    (hroute : adj.Route s v route) :
    ∃ d, (ofSource adj s : Geodesics α).distanceTo v = some d ∧
      d + 1 ≤ route.length := by
  obtain ⟨k, hk⟩ :=
    Nat.exists_eq_succ_of_ne_zero (List.length_pos_of_mem hroute.target_mem).ne'
  obtain ⟨d, hd, hle⟩ :=
    distanceTo_ofSource_le_of_walk (α := α) hclosed hs (hroute.walk hk)
  exact ⟨d, hd, by omega⟩

/-- The ways back to the source are the routes with as many links as the
distance says. -/
theorem mem_routesBack_ofSource
    (hclosed : adj.Closed)
    (hs : s < adj.size)
    {v away : Nat}
    (hv : (ofSource adj s : Geodesics α).distanceTo v = some away)
    {route : List Nat} :
    route ∈ (ofSource adj s : Geodesics α).routesBack away v ↔
      adj.Route s v route ∧ route.length = away + 1 := by
  induction away generalizing v route with
  | zero =>
      obtain rfl := (distanceTo_ofSource_eq_zero_iff hclosed hs).mp hv
      rw [routesBack_ofSource_zero hclosed hs, List.mem_singleton]
      constructor
      · rintro rfl
        exact ⟨⟨rfl, rfl, List.isChain_singleton v⟩, rfl⟩
      · rintro ⟨hroute, hlength⟩
        obtain ⟨u, rfl⟩ := List.length_eq_one_iff.mp hlength
        rw [Option.some_inj.mp hroute.head_eq]
  | succ away ih =>
      rw [routesBack_ofSource_succ hclosed hs hv]
      simp only [List.mem_map, List.mem_flatMap,
        mem_sortedPredecessors_ofSource hclosed hs hv]
      constructor
      · rintro ⟨front, ⟨u, ⟨hstep, hu⟩, hfront⟩, rfl⟩
        obtain ⟨hroute, hlength⟩ := (ih hu).mp hfront
        refine ⟨Adjacency.route_concat_iff.mpr ⟨rfl, Or.inr ⟨u, hstep, hroute⟩⟩,
          ?_⟩
        rw [List.length_append, hlength, List.length_singleton]
      · rintro ⟨hroute, hlength⟩
        rcases List.eq_nil_or_concat route with rfl | ⟨front, w, rfl⟩
        · simp at hlength
        rw [List.concat_eq_append] at hroute hlength ⊢
        have hfront : front.length = away + 1 := by simpa using hlength
        obtain ⟨rfl, ⟨rfl, -⟩ | ⟨u, hstep, hroute⟩⟩ :=
          Adjacency.route_concat_iff.mp hroute
        · simp at hfront
        have hu :=
          distanceTo_ofSource_of_next hclosed hs hv (hroute.walk hfront) hstep
        exact ⟨front, ⟨u, ⟨hstep, hu⟩, (ih hu).mpr ⟨hroute, hfront⟩⟩, rfl⟩

/-- Along a shortest route the distances count up from zero. -/
theorem map_distanceTo_of_mem_routesBack
    (hclosed : adj.Closed)
    (hs : s < adj.size)
    {v away : Nat}
    (hv : (ofSource adj s : Geodesics α).distanceTo v = some away)
    {route : List Nat}
    (hroute : route ∈ (ofSource adj s : Geodesics α).routesBack away v) :
    route.map (ofSource adj s : Geodesics α).distanceTo =
      (List.range (away + 1)).map some := by
  induction away generalizing v route with
  | zero =>
      obtain rfl := (distanceTo_ofSource_eq_zero_iff hclosed hs).mp hv
      rw [routesBack_ofSource_zero hclosed hs, List.mem_singleton] at hroute
      simp [hroute, hv]
  | succ away ih =>
      rw [routesBack_ofSource_succ hclosed hs hv] at hroute
      simp only [List.mem_map, List.mem_flatMap,
        mem_sortedPredecessors_ofSource hclosed hs hv] at hroute
      obtain ⟨front, ⟨u, ⟨-, hu⟩, hfront⟩, rfl⟩ := hroute
      rw [List.map_append, ih hu hfront, List.map_singleton, hv,
        List.range_succ (n := away + 1), List.map_append]
      rfl

/-- The ways back are the simple routes of the least length. -/
theorem mem_routesBack_iff_simpleRoute
    (hclosed : adj.Closed)
    (hs : s < adj.size)
    {v away : Nat}
    (hv : (ofSource adj s : Geodesics α).distanceTo v = some away)
    {route : List Nat} :
    route ∈ (ofSource adj s : Geodesics α).routesBack away v ↔
      adj.SimpleRoute s v route ∧ route.length = away + 1 := by
  constructor
  · intro hmem
    obtain ⟨hroute, hlength⟩ := (mem_routesBack_ofSource hclosed hs hv).mp hmem
    refine ⟨⟨hroute,
      List.Nodup.of_map (ofSource adj s : Geodesics α).distanceTo ?_⟩, hlength⟩
    rw [map_distanceTo_of_mem_routesBack hclosed hs hv hmem]
    exact List.nodup_range.map (Option.some_injective Nat)
  · rintro ⟨hroute, hlength⟩
    exact (mem_routesBack_ofSource hclosed hs hv).mpr ⟨hroute.toRoute, hlength⟩

/-- Over ascending neighbours the predecessors of a node are different nodes. -/
theorem sortedPredecessors_ofSource_ascending
    (hclosed : adj.Closed)
    (hs : s < adj.size)
    (hascending : adj.Ascending)
    (v : Nat) :
    ((ofSource adj s : Geodesics α).sortedPredecessors v).Pairwise (· < ·) := by
  have hnodup : ∀ v, (adj.neighbors v).toList.Nodup := fun v =>
    List.Nodup.of_map Prod.fst ((hascending v).imp ne_of_lt)
  have hfst : (((ofSource adj s : Geodesics α).predecessorsOf v).map
        Prod.fst).Nodup := by
    refine (predecessorsOf_ofSource_nodup hclosed hs hnodup v).map_on ?_
    rintro ⟨u, p⟩ hp ⟨u', q⟩ hq heq
    obtain rfl : u = u' := heq
    obtain ⟨hlink, -⟩ := (mem_predecessorsOf_ofSource hclosed hs).mp hp
    obtain ⟨hlink', -⟩ := (mem_predecessorsOf_ofSource hclosed hs).mp hq
    exact congrArg (Prod.mk u) (hascending.eq_of_mem_neighbors hlink hlink')
  have hsorted : ((ofSource adj s : Geodesics α).sortedPredecessors v).Pairwise
      (· ≤ ·) := by
    refine (List.pairwise_mergeSort (fun a b c => ?_) (fun a b => ?_) _).imp
      of_decide_eq_true
    · simpa only [decide_eq_true_eq] using le_trans
    · simpa only [Bool.or_eq_true, decide_eq_true_eq] using le_total a b
  exact (hsorted.and ((List.mergeSort_perm _ _).nodup_iff.mpr hfst)).imp
    fun hboth =>
    lt_of_le_of_ne hboth.1 hboth.2

/-- Read from the target, the ways back are in lexicographic order; none is
repeated.  Routes through different predecessors differ right before the
target. -/
theorem routesBack_ofSource_ascending
    (hclosed : adj.Closed)
    (hs : s < adj.size)
    (hascending : adj.Ascending)
    (away v : Nat) :
    ((ofSource adj s : Geodesics α).routesBack away v).Pairwise fun x y =>
      x.reverse < y.reverse := by
  fun_induction routesBack (ofSource adj s : Geodesics α) away v with
  | case1 => exact List.pairwise_singleton _ _
  | case2 => exact List.Pairwise.nil
  | case3 v hne nearer ih =>
      rw [List.pairwise_map, List.pairwise_flatMap]
      simp only [List.reverse_append, List.reverse_singleton,
        List.singleton_append, List.cons_lt_cons_iff, lt_irrefl,
        true_and, false_or]
      refine ⟨fun u _ => ih u, ?_⟩
      refine (sortedPredecessors_ofSource_ascending hclosed hs hascending v).imp
        fun {u u'} hlt x hx y hy => ?_
      obtain ⟨x, rfl⟩ :=
        List.getLast?_eq_some_iff.mp (getLast?_of_mem_routesBack hx)
      obtain ⟨y, rfl⟩ :=
        List.getLast?_eq_some_iff.mp (getLast?_of_mem_routesBack hy)
      simp only [List.reverse_append, List.reverse_singleton,
        List.singleton_append]
      exact List.cons_lt_cons_iff.mpr (Or.inl hlt)

theorem routesBack_ofSource_nodup
    (hclosed : adj.Closed)
    (hs : s < adj.size)
    (hascending : adj.Ascending)
    (away v : Nat) :
    ((ofSource adj s : Geodesics α).routesBack away v).Nodup :=
  (routesBack_ofSource_ascending hclosed hs hascending away v).imp
    fun hlt heq => absurd (heq ▸ hlt) (lt_irrefl _)

end Found

section Counts

variable {α : Type} [AddCommMonoidWithOne α] {adj : Adjacency} {s : Nat}

/-- The count of a node is the number of the ways back from it. -/
theorem countOf_eq_length_routesBack
    (hclosed : adj.Closed)
    (hs : s < adj.size)
    {v away : Nat}
    (hv : (ofSource adj s : Geodesics α).distanceTo v = some away) :
    (ofSource adj s : Geodesics α).countOf v =
      ((ofSource adj s : Geodesics α).routesBack away v).length := by
  induction away generalizing v with
  | zero =>
      obtain rfl := (distanceTo_ofSource_eq_zero_iff hclosed hs).mp hv
      rw [routesBack_ofSource_zero hclosed hs, countOf_ofSource_self hclosed hs]
      rfl
  | succ away ih =>
      have hne := ne_source_of_distanceTo_ofSource hclosed hs hv
      have hperm :
          (((ofSource adj s : Geodesics α).predecessorsOf v).map Prod.fst).Perm
            ((ofSource adj s : Geodesics α).sortedPredecessors v) :=
        (List.mergeSort_perm _ _).symm
      calc
        (ofSource adj s : Geodesics α).countOf v =
          (((ofSource adj s : Geodesics α).predecessorsOf v).map Prod.fst
            |>.map (ofSource adj s : Geodesics α).countOf).sum :=
          countOf_ofSource_eq_sum hclosed hs hne
        _ = (((ofSource adj s : Geodesics α).sortedPredecessors v).map
          (ofSource adj s : Geodesics α).countOf).sum := (hperm.map _).sum_eq
        _ = (((ofSource adj s : Geodesics α).sortedPredecessors v).map fun u =>
              (((ofSource adj s : Geodesics α).routesBack away u).length :
                α)).sum := by
            refine congrArg List.sum (List.map_congr_left fun u hu => ?_)
            exact ih ((mem_sortedPredecessors_ofSource hclosed hs hv).mp hu).2
        _ = (((ofSource adj s : Geodesics α).routesBack (away + 1) v).length :
                α) := by
            rw [routesBack_ofSource_succ hclosed hs hv, List.length_map,
              List.length_flatMap, Nat.cast_list_sum, List.map_map]
            rfl

end Counts

end Geodesics

end LinkAnalysis
