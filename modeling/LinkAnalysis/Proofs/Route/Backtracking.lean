import LinkAnalysis.Proofs.Route.Counting
import Mathlib

/-!
# Walking back

The shortest routes to a node are found by walking back from it over the
predecessors.  No way back comes to a dead end, so the walk over a stack of
unfinished routes comes to an end.  It meets every shortest route once, in their
order from the target on, and keeps as many as the limit says.
-/

namespace LinkAnalysis

open Adjacency

namespace Geodesics

/-! ## The stack of unfinished routes -/

section Stack

variable {α : Type} {g : Geodesics α} {limit : Nat}

/-- Work off a stack of unfinished routes, for as long as it takes: a route that
has come back to the source is added, and any other one goes on to all
predecessors of its first node, smaller ones on top.  When there is one route
too many the rest of the stack is left. -/
inductive Backtracks (g : Geodesics α) (limit : Nat) :
    List (List Nat) → RouteHaul → RouteHaul → Prop
  | finish (haul : RouteHaul) : Backtracks g limit [] haul haul
  | stop {stack : List (List Nat)} {haul : RouteHaul}
      (htruncated : haul.truncated = true) : Backtracks g limit stack haul haul
  | take {behind : List Nat} {stack : List (List Nat)} {haul result : RouteHaul}
      (hroom : haul.truncated = false)
      (hrest : Backtracks g limit stack
        (haul.add limit (g.source :: behind)) result) :
      Backtracks g limit ((g.source :: behind) :: stack) haul result
  | back {head : Nat} {behind : List Nat} {stack : List (List Nat)}
      {haul result : RouteHaul} (hroom : haul.truncated = false)
      (hne : head ≠ g.source)
      (hrest : Backtracks g limit ((g.sortedPredecessors head).map
          (fun u => u :: head :: behind) ++ stack) haul result) :
      Backtracks g limit ((head :: behind) :: stack) haul result

theorem Backtracks.eq_of_truncated
    {stack : List (List Nat)} {haul result : RouteHaul}
    (hbacktracks : Backtracks g limit stack haul result)
    (htruncated : haul.truncated = true) :
    result = haul := by
  cases hbacktracks with
  | finish => rfl
  | stop => rfl
  | take hroom => simp [hroom] at htruncated
  | back hroom => simp [hroom] at htruncated

theorem Backtracks.of_trace_of_truncated
    {away head : Nat} {behind : List Nat} {stack : List (List Nat)}
    {haul result : RouteHaul}
    (htruncated : haul.truncated = true)
    (hbacktracks :
      Backtracks g limit stack (g.trace limit away head behind haul) result) :
    Backtracks g limit ((head :: behind) :: stack) haul result := by
  rw [trace_of_truncated htruncated] at hbacktracks
  obtain rfl := hbacktracks.eq_of_truncated htruncated
  exact .stop htruncated

/-- The unfinished routes through these nodes are worked off one after the
other. -/
theorem Backtracks.of_foldl_trace
    {away : Nat} {behind nodes : List Nat} {result : RouteHaul}
    (hnodes : ∀ u ∈ nodes, ∀ {stack : List (List Nat)} {haul : RouteHaul},
      Backtracks g limit stack (g.trace limit away u behind haul) result →
        Backtracks g limit ((u :: behind) :: stack) haul result)
    {stack : List (List Nat)} {haul : RouteHaul}
    (hbacktracks : Backtracks g limit stack
      (nodes.foldl (fun haul u => g.trace limit away u behind haul) haul)
      result) :
    Backtracks g limit (nodes.map (fun u => u :: behind) ++ stack)
      haul result := by
  induction nodes generalizing haul with
  | nil => exact hbacktracks
  | cons u nodes ih =>
      rw [List.foldl_cons] at hbacktracks
      rw [List.map_cons, List.cons_append]
      exact hnodes u List.mem_cons_self
        (ih (fun w hw => hnodes w (List.mem_cons_of_mem u hw)) hbacktracks)

end Stack

section Found

variable {α : Type} [NatCast α] [Add α] {adj : Adjacency} {s : Nat}

/-- What is on top of the stack is worked off as it is traced: each step back is
one link nearer to the source, so the walk back arrives there when the distance
is used up. -/
theorem Backtracks.of_trace
    (hclosed : adj.Closed)
    (hs : s < adj.size)
    {limit away head : Nat}
    (hhead : (ofSource adj s : Geodesics α).distanceTo head = some away)
    {behind : List Nat} {stack : List (List Nat)} {haul result : RouteHaul}
    (hbacktracks : Backtracks (ofSource adj s : Geodesics α) limit stack
      ((ofSource adj s : Geodesics α).trace limit away head behind haul)
      result) :
    Backtracks (ofSource adj s : Geodesics α) limit ((head :: behind) :: stack)
      haul result := by
  have hsource := source_ofSource (α := α) hclosed hs
  induction away generalizing head behind stack haul with
  | zero =>
      cases hroom : haul.truncated with
      | true => exact hbacktracks.of_trace_of_truncated hroom
      | false =>
          obtain rfl : head = (ofSource adj s : Geodesics α).source :=
            ((distanceTo_ofSource_eq_zero_iff hclosed hs).mp hhead).trans
              hsource.symm
          rw [trace, if_neg (by simp [hroom]), if_pos rfl] at hbacktracks
          exact .take hroom hbacktracks
  | succ away ih =>
      cases hroom : haul.truncated with
      | true => exact hbacktracks.of_trace_of_truncated hroom
      | false =>
          have hne : head ≠ (ofSource adj s : Geodesics α).source := fun heq =>
            ne_source_of_distanceTo_ofSource hclosed hs hhead
              (heq.trans hsource)
          rw [trace, if_neg (by simp [hroom]), if_neg hne] at hbacktracks
          refine .back hroom hne
            (.of_foldl_trace (fun u hu _ _ => ih ?_) hbacktracks)
          exact ((mem_sortedPredecessors_ofSource hclosed hs hhead).mp hu).2

/-- From a node that the search reached, the walk back comes to an end. -/
theorem exists_backtracks
    (hclosed : adj.Closed)
    (hs : s < adj.size)
    {limit v away : Nat}
    (hlimit : limit ≠ 0)
    (hv : (ofSource adj s : Geodesics α).distanceTo v = some away) :
    ∃ haul : RouteHaul,
      Backtracks (ofSource adj s : Geodesics α) limit [[v]]
        ⟨0, [], false⟩ haul ∧
      (ofSource adj s : Geodesics α).routesTo v limit =
        (haul.routes.reverse.mergeSort routeLe, haul.truncated) := by
  refine ⟨_, .of_trace hclosed hs hv (.finish _), ?_⟩
  rw [routesTo, hv]
  exact if_neg hlimit

end Found

/-! ## The routes that are kept -/

/-- The answer of the search `g` from `u` holds the first shortest walks to `v`,
as they are ordered from `v` on, and lists them as they are ordered from `u`
on. -/
structure Reconstructs {n : Nat} (G : SimpleGraph (Fin n)) (u v : Fin n)
    (limit : Nat) (g : Geodesics Nat)
    (answer : List (List Nat) × Bool) : Prop where
  backtracks : G.Reachable u v → limit ≠ 0 → ∃ haul : RouteHaul,
    Backtracks g limit [[v.val]] ⟨0, [], false⟩ haul ∧
    answer = (haul.routes.reverse.mergeSort routeLe, haul.truncated)
  countOf_eq : g.countOf v = G.shortestWalkCount u v
  countOf_unreached : ¬ G.Reachable u v → g.countOf v = 0
  countOf_source : u = v → g.countOf v = 1
  length_eq : answer.1.length = min limit (G.shortestWalkCount u v)
  exists_walk : ∀ route ∈ answer.1, ∃ p ∈ G.shortestWalks u v,
    p.support.map Fin.val = route
  ascending : answer.1.Pairwise (· < ·)
  nearest : ∀ p ∈ G.shortestWalks u v, p.support.map Fin.val ∉ answer.1 →
    ∀ route ∈ answer.1, route.reverse < (p.support.map Fin.val).reverse
  truncated_iff : answer.2 = true ↔ limit < G.shortestWalkCount u v
  truncated_iff_countOf : answer.2 = true ↔ answer.1.length < g.countOf v

end Geodesics

theorem rel_of_mem_take
    {β : Type} {R : β → β → Prop} {l : List β}
    (hpairwise : l.Pairwise R)
    {k : Nat} {x y : β}
    (hx : x ∈ l.take k)
    (hy : y ∈ l)
    (hnot : y ∉ l.take k) :
    R x y := by
  rw [← List.take_append_drop k l, List.mem_append] at hy
  rw [← List.take_append_drop k l, List.pairwise_append] at hpairwise
  exact hpairwise.2.2 x hx y (hy.resolve_left hnot)

namespace Geodesics

section Kept

variable {n : Nat} {ends : Array (Nat × Nat)} {active : List Nat} {u v : Fin n}

/-- The ways back in a finished search are the shortest walks of the graph. -/
theorem mem_routesBack_iff_exists_walk
    (hends : SimpleEnds n ends)
    (hactive : ActiveLinks ends active)
    {d : Nat}
    (hv :
      (ofSource (ofEnds n ends active) u : Geodesics Nat).distanceTo v = some d)
    {route : List Nat} :
    route ∈ (ofSource (ofEnds n ends active) u : Geodesics Nat).routesBack d v ↔
      ∃ p ∈ (linkGraph n ends active).shortestWalks u v,
        p.support.map Fin.val = route := by
  have hrange := hends.inRange hactive
  obtain ⟨-, hdist⟩ := reachable_of_distanceTo hrange hv
  rw [mem_routesBack_ofSource hrange.closed (by simp) hv,
    route_ofEnds_iff_exists_walk hends]
  constructor
  · rintro ⟨⟨p, rfl⟩, hlength⟩
    rw [length_map_support, Nat.add_right_cancel_iff] at hlength
    exact ⟨p, hlength.trans hdist.symm, rfl⟩
  · rintro ⟨p, hp, rfl⟩
    rw [length_map_support, Nat.add_right_cancel_iff]
    exact ⟨⟨p, rfl⟩, (SimpleGraph.mem_shortestWalks.mp hp).trans hdist⟩

/-- Any limit but zero cuts the list of all ways back; with the limit zero
nothing is sought. -/
theorem routesTo_eq_take
    {α : Type} {g : Geodesics α} {target away : Nat}
    (haway : g.distanceTo target = some away)
    (hsome : g.routesBack away target ≠ [])
    (limit : Nat) :
    g.routesTo target limit =
      (((g.routesBack away target).take limit).mergeSort routeLe,
        decide (limit < (g.routesBack away target).length)) := by
  by_cases hlimit : limit = 0
  · subst limit
    rw [routesTo, haway]
    simp [List.length_pos_of_ne_nil hsome]
  · exact routesTo_eq haway hlimit

theorem reconstructs_of_reachable
    (hends : SimpleEnds n ends)
    (hactive : ActiveLinks ends active)
    (hascending : (ofEnds n ends active).Ascending)
    (limit : Nat)
    (hreach : (linkGraph n ends active).Reachable u v) :
    (ofSource (ofEnds n ends active) u : Geodesics Nat).Reconstructs
      (linkGraph n ends active) u v limit
      ((ofSource (ofEnds n ends active) u : Geodesics Nat).routesTo v
        limit) := by
  have hrange := hends.inRange hactive
  have hs : u.val < (ofEnds n ends active).size := by simp
  have hv := distanceTo_of_reachable (α := Nat) hrange hreach
  obtain ⟨all, hall⟩ : ∃ all, (ofSource (ofEnds n ends active) u : Geodesics
      Nat).routesBack ((linkGraph n ends active).dist u v) v = all := ⟨_, rfl⟩
  have hmem : ∀ route,
      route ∈ all ↔ ∃ p ∈ (linkGraph n ends active).shortestWalks u v,
        p.support.map Fin.val = route :=
    fun route => hall ▸ mem_routesBack_iff_exists_walk hends hactive hv
  have hbackwards : all.Pairwise fun x y => x.reverse < y.reverse :=
    hall ▸ routesBack_ofSource_ascending hrange.closed hs hascending _ _
  have hnodup : all.Nodup :=
    hall ▸ routesBack_ofSource_nodup hrange.closed hs hascending _ _
  have hcount : (ofSource (ofEnds n ends active) u : Geodesics Nat).countOf v =
      (linkGraph n ends active).shortestWalkCount u v :=
    countOf_ofSource hends hactive u v
  have hlength :
      all.length = (linkGraph n ends active).shortestWalkCount u v := by
    rw [← hcount, countOf_eq_length_routesBack hrange.closed hs hv, hall]
    rfl
  have hpos := SimpleGraph.shortestWalkCount_pos hreach
  have hanswer := routesTo_eq_take hv
    (by rw [hall]; exact List.ne_nil_of_length_pos (by omega)) limit
  rw [hall] at hanswer
  have hkept : ∀ route, route ∈ ((ofSource (ofEnds n ends active) u :
          Geodesics Nat).routesTo v limit).1 ↔
      route ∈ all.take limit := fun route => by rw [hanswer, List.mem_mergeSort]
  exact
    { backtracks := fun _ hlimit => exists_backtracks hrange.closed hs hlimit hv
      countOf_eq := hcount
      countOf_unreached := fun hnot => absurd hreach hnot
      countOf_source :=
        fun heq => by rw [hcount, heq, SimpleGraph.shortestWalkCount_self]
      length_eq := by
        rw [hanswer, List.length_mergeSort, List.length_take, hlength]
      exists_walk := fun route hroute =>
        (hmem route).mp (List.mem_of_mem_take ((hkept route).mp hroute))
      ascending := by
        rw [hanswer]
        exact routeLe_mergeSort_strict
          (hnodup.sublist (List.take_sublist limit all))
      nearest := fun p hp hnot route hroute =>
        rel_of_mem_take hbackwards ((hkept route).mp hroute)
          ((hmem _).mpr ⟨p, hp, rfl⟩) fun hin => hnot ((hkept _).mpr hin)
      truncated_iff := by rw [hanswer, decide_eq_true_iff, hlength]
      truncated_iff_countOf := by
        rw [hanswer, decide_eq_true_iff, List.length_mergeSort,
          List.length_take, hcount, hlength]
        omega }

theorem reconstructs_of_not_reachable
    (hends : SimpleEnds n ends)
    (hactive : ActiveLinks ends active)
    (limit : Nat)
    (hreach : ¬ (linkGraph n ends active).Reachable u v) :
    (ofSource (ofEnds n ends active) u : Geodesics Nat).Reconstructs
      (linkGraph n ends active) u v limit
      ((ofSource (ofEnds n ends active) u : Geodesics Nat).routesTo v
        limit) := by
  have hv :=
    distanceTo_of_not_reachable (α := Nat) (hends.inRange hactive) hreach
  have hcount : (ofSource (ofEnds n ends active) u : Geodesics Nat).countOf v =
      (linkGraph n ends active).shortestWalkCount u v :=
    countOf_ofSource hends hactive u v
  have hzero := SimpleGraph.shortestWalkCount_eq_zero_of_not_reachable hreach
  have hanswer : (ofSource (ofEnds n ends active) u : Geodesics Nat).routesTo v
        limit = ([], false) := by
    rw [routesTo, hv]
  rw [hanswer]
  exact
    { backtracks := fun hreachable => absurd hreachable hreach
      countOf_eq := hcount
      countOf_unreached := fun _ => hcount.trans hzero
      countOf_source :=
        fun heq => absurd (heq ▸ SimpleGraph.Reachable.refl u) hreach
      length_eq := by simp [hzero]
      exists_walk := fun _ hmem => absurd hmem List.not_mem_nil
      ascending := List.Pairwise.nil
      nearest := fun _ _ _ _ hmem => absurd hmem List.not_mem_nil
      truncated_iff := by simp [hzero]
      truncated_iff_countOf := by simp [hcount, hzero] }

end Kept

end Geodesics

/-- In a network the search from a node answers every question for shortest
routes to a node, and every answer is exact. -/
theorem routesTo_reconstructs
    (s : Snapshot) (u v : Fin (Network.ofSnapshot s).size) (limit : Nat) :
    ∃ answer,
      (Geodesics.ofSource (Network.ofSnapshot s).adjacency u :
            Geodesics Nat).routesTo? v limit = some answer ∧
      (Geodesics.ofSource (Network.ofSnapshot s).adjacency u).Reconstructs
        (Network.ofSnapshot s).wholeGraph u v limit answer := by
  have hclosed := Network.closed_adjacency_ofSnapshot s
  have hascending := Network.ascending_adjacency_ofSnapshot s
  have hends := Network.simpleEnds_ofSnapshot s
  have hactive := Network.activeLinks_range (Network.ofSnapshot s)
  rw [Network.adjacency_ofSnapshot, Network.adjacencyOf] at hclosed hascending ⊢
  obtain ⟨d, hd⟩ :=
    Geodesics.explored_ofSource (α := Nat) hclosed (s := u) (by simp)
  refine ⟨_, if_pos (by rw [hd.size_distances, size_ofEnds]; exact v.isLt), ?_⟩
  by_cases hreach : (Network.ofSnapshot s).wholeGraph.Reachable u v
  · exact Geodesics.reconstructs_of_reachable hends hactive hascending
      limit hreach
  · exact Geodesics.reconstructs_of_not_reachable hends hactive limit hreach

end LinkAnalysis
