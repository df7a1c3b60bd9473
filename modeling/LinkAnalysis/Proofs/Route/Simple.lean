import LinkAnalysis.Proofs.Network.Search
import LinkAnalysis.Proofs.Route.Order
import Mathlib.Tactic

/-!
# Simple routes

A simple route follows links and repeats no node.  All simple routes up to a
length are listed by going on from the first node to each of its neighbours in
turn.  Over ascending neighbours this lists them in lexicographic order.
-/

namespace LinkAnalysis

namespace Adjacency

variable {adj : Adjacency} {source target : Nat}

def nextOf (adj : Adjacency) (v : Nat) : List Nat :=
  (adj.neighbors v).toList.map Prod.fst

/-- Neighbours are listed in ascending order, each of them once. -/
def Ascending (adj : Adjacency) : Prop := ∀ v, (adj.nextOf v).Pairwise (· < ·)

/-- A route follows links from the source to the target. -/
structure Route (adj : Adjacency) (source target : Nat)
    (route : List Nat) : Prop where
  head_eq : route.head? = some source
  last_eq : route.getLast? = some target
  joined : route.IsChain fun v w => w ∈ adj.nextOf v

structure SimpleRoute (adj : Adjacency) (source target : Nat)
    (route : List Nat) : Prop extends adj.Route source target route where
  nodup : route.Nodup

theorem mem_nextOf {v w : Nat} :
    w ∈ adj.nextOf v ↔ ∃ link, (w, link) ∈ adj.neighbors v := by
  simp [nextOf]

theorem Ascending.eq_of_mem_neighbors
    (hascending : adj.Ascending)
    {v w p q : Nat}
    (hp : (w, p) ∈ adj.neighbors v)
    (hq : (w, q) ∈ adj.neighbors v) :
    p = q := by
  have hnodup : (adj.nextOf v).Nodup := (hascending v).imp ne_of_lt
  have heq := List.inj_on_of_nodup_map hnodup (Array.mem_toList_iff.mpr hp)
    (Array.mem_toList_iff.mpr hq) rfl
  exact (Prod.mk.inj heq).2

/-- A route is one node, or it goes on along a link. -/
theorem route_cons_iff {v : Nat} {rest : List Nat} :
    adj.Route source target (v :: rest) ↔ v = source ∧
      (rest = [] ∧ source = target ∨
        ∃ w ∈ adj.nextOf source, adj.Route w target rest) := by
  cases rest with
  | nil =>
      constructor
      · intro hroute
        obtain rfl : v = source := by simpa using hroute.head_eq
        exact ⟨rfl, Or.inl ⟨rfl, by simpa using hroute.last_eq⟩⟩
      · rintro ⟨rfl, ⟨-, rfl⟩ | ⟨w, -, hrest⟩⟩
        · exact ⟨rfl, rfl, List.isChain_singleton v⟩
        · exact absurd hrest.head_eq (by simp)
  | cons w rest =>
      constructor
      · intro hroute
        obtain rfl : v = source := by simpa using hroute.head_eq
        obtain ⟨hstep, hchain⟩ := List.isChain_cons_cons.mp hroute.joined
        exact ⟨rfl,
          Or.inr ⟨w, hstep, rfl, by simpa using hroute.last_eq, hchain⟩⟩
      · rintro ⟨rfl, ⟨hnil, -⟩ | ⟨u, hstep, hrest⟩⟩
        · exact absurd hnil (by simp)
        · obtain rfl : w = u := by simpa using hrest.head_eq
          exact ⟨rfl, by simpa using hrest.last_eq,
            List.isChain_cons_cons.mpr ⟨hstep, hrest.joined⟩⟩

theorem not_route_nil : ¬ adj.Route source target [] :=
  fun hroute => absurd hroute.head_eq (by simp)

theorem Route.target_mem
    {route : List Nat}
    (hroute : adj.Route source target route) :
    target ∈ route :=
  List.mem_of_getLast? hroute.last_eq

theorem route_concat_iff {v : Nat} {front : List Nat} :
    adj.Route source target (front ++ [v]) ↔ v = target ∧
      (front = [] ∧ source = target ∨
        ∃ u, target ∈ adj.nextOf u ∧ adj.Route source u front) := by
  constructor
  · intro hroute
    obtain rfl : v = target := by simpa using hroute.last_eq
    refine ⟨rfl, ?_⟩
    obtain ⟨hfront, -, hstep⟩ := List.isChain_append.mp hroute.joined
    rcases List.eq_nil_or_concat front with rfl | ⟨earlier, u, rfl⟩
    · exact Or.inl ⟨rfl, (by simpa using hroute.head_eq : v = source).symm⟩
    · refine Or.inr ⟨u, hstep u (by simp) v rfl, ?_, by simp, hfront⟩
      have hhead := hroute.head_eq
      rw [List.head?_append_of_ne_nil _ (by simp)] at hhead
      exact hhead
  · rintro ⟨rfl, ⟨rfl, rfl⟩ | ⟨u, hstep, hfront⟩⟩
    · exact ⟨rfl, rfl, List.isChain_singleton _⟩
    · have hne : front ≠ [] := by
        rintro rfl
        exact not_route_nil hfront
      refine ⟨?_, by simp,
        List.isChain_append.mpr ⟨hfront.joined, List.isChain_singleton v, ?_⟩⟩
      · rw [List.head?_append_of_ne_nil _ hne]
        exact hfront.head_eq
      · intro x hx y hy
        rw [hfront.last_eq, Option.mem_some_iff] at hx
        rw [List.head?_cons, Option.mem_some_iff] at hy
        rw [← hx, ← hy]
        exact hstep

/-- A route of so many links is a walk. -/
theorem Route.walk
    {route : List Nat}
    (hsimple : adj.Route source target route)
    {k : Nat}
    (hlength : route.length = k + 1) :
    adj.Walk source k target := by
  induction k generalizing route target with
  | zero =>
      obtain ⟨v, rfl⟩ := List.length_eq_one_iff.mp hlength
      have hv : v = source := by simpa using hsimple.head_eq
      have hv' : v = target := by simpa using hsimple.last_eq
      rw [← hv, ← hv']
      exact .nil
  | succ k ih =>
      rcases List.eq_nil_or_concat route with rfl | ⟨front, v, rfl⟩
      · simp at hlength
      · rw [List.concat_eq_append] at hsimple hlength
        have hfront : front.length = k + 1 := by simpa using hlength
        obtain ⟨rfl, ⟨rfl, -⟩ | ⟨u, hstep, hroute⟩⟩ :=
          route_concat_iff.mp hsimple
        · simp at hfront
        · obtain ⟨link, hlink⟩ := mem_nextOf.mp hstep
          exact (ih hroute hfront).snoc hlink

theorem SimpleRoute.source_mem
    {route : List Nat}
    (hroute : adj.SimpleRoute source target route) :
    source ∈ route :=
  List.mem_of_head? hroute.head_eq

theorem simpleRoute_self_iff {route : List Nat} :
    adj.SimpleRoute target target route ↔ route = [target] := by
  constructor
  · intro hroute
    cases route with
    | nil => exact absurd hroute.toRoute not_route_nil
    | cons v rest =>
        obtain ⟨rfl, ⟨rfl, -⟩ | ⟨w, -, hrest⟩⟩ :=
          route_cons_iff.mp hroute.toRoute
        · rfl
        · exact absurd hrest.target_mem (List.nodup_cons.mp hroute.nodup).1
  · rintro rfl
    exact ⟨⟨rfl, rfl, List.isChain_singleton target⟩,
      List.nodup_singleton target⟩

theorem simpleRoute_iff_of_ne (hne : source ≠ target) {route : List Nat} :
    adj.SimpleRoute source target route ↔ ∃ rest,
      route = source :: rest ∧
      source ∉ rest ∧
      ∃ w ∈ adj.nextOf source, adj.SimpleRoute w target rest := by
  constructor
  · intro hroute
    cases route with
    | nil => exact absurd hroute.toRoute not_route_nil
    | cons v rest =>
        obtain ⟨hfresh, hnodup⟩ := List.nodup_cons.mp hroute.nodup
        obtain ⟨rfl, ⟨-, heq⟩ | ⟨w, hstep, hrest⟩⟩ :=
          route_cons_iff.mp hroute.toRoute
        · exact absurd heq hne
        · exact ⟨rest, rfl, hfresh, w, hstep, hrest, hnodup⟩
  · rintro ⟨rest, rfl, hfresh, w, hstep, hrest⟩
    exact ⟨route_cons_iff.mpr ⟨rfl, Or.inr ⟨w, hstep, hrest.toRoute⟩⟩,
      List.nodup_cons.mpr ⟨hfresh, hrest.nodup⟩⟩

/-! ## The list of the simple routes -/

/-- The simple routes from a node to the target that avoid these nodes and have
at most so many links. -/
def routesFrom (adj : Adjacency) (target : Nat) :
    Nat → List Nat → Nat → List (List Nat)
  | depth, avoid, v =>
    if v ∈ avoid then []
    else if v = target then [[target]]
    else match depth with
      | 0 => []
      | depth + 1 =>
        ((adj.nextOf v).flatMap fun w =>
          adj.routesFrom target depth (v :: avoid) w).map (v :: ·)

theorem routesFrom_of_mem
    {depth v : Nat} {avoid : List Nat}
    (hmem : v ∈ avoid) :
    adj.routesFrom target depth avoid v = [] := by
  unfold routesFrom
  rw [if_pos hmem]

theorem routesFrom_target
    {depth : Nat} {avoid : List Nat}
    (hnotMem : target ∉ avoid) :
    adj.routesFrom target depth avoid target = [[target]] := by
  unfold routesFrom
  rw [if_neg hnotMem, if_pos rfl]

theorem routesFrom_zero
    {v : Nat} {avoid : List Nat}
    (hne : v ≠ target) :
    adj.routesFrom target 0 avoid v = [] := by
  unfold routesFrom
  rw [if_neg hne, ite_self]

theorem routesFrom_succ
    {depth v : Nat} {avoid : List Nat}
    (hnotMem : v ∉ avoid)
    (hne : v ≠ target) :
    adj.routesFrom target (depth + 1) avoid v =
      ((adj.nextOf v).flatMap (adj.routesFrom target depth (v :: avoid))).map
        (v :: ·) := by
  rw [routesFrom, if_neg hnotMem, if_neg hne]

theorem mem_routesFrom {depth v : Nat} {avoid route : List Nat} :
    route ∈ adj.routesFrom target depth avoid v ↔
      adj.SimpleRoute v target route ∧
        (∀ u ∈ route, u ∉ avoid) ∧
        route.length ≤ depth + 1 := by
  fun_induction routesFrom adj target depth avoid v generalizing route with
  | case1 depth avoid v hv =>
      exact ⟨by simp, fun hboth => absurd hv (hboth.2.1 v hboth.1.source_mem)⟩
  | case2 depth avoid htarget =>
      rw [simpleRoute_self_iff, List.mem_singleton]
      constructor
      · rintro rfl
        simp [htarget]
      · exact fun hboth => hboth.1
  | case3 avoid v hv hne =>
      refine ⟨by simp, fun ⟨hroute, _, hlength⟩ => ?_⟩
      obtain ⟨rest, rfl, -, w, -, hrest⟩ :=
        (simpleRoute_iff_of_ne hne).mp hroute
      have hpos := List.length_pos_of_mem hrest.source_mem
      rw [List.length_cons] at hlength
      omega
  | case4 avoid v hv hne depth ih =>
      rw [simpleRoute_iff_of_ne hne]
      simp only [List.mem_map, List.mem_flatMap, ih, List.mem_cons, not_or]
      constructor
      · rintro ⟨rest, ⟨w, hstep, hrest, havoid, hlength⟩, rfl⟩
        refine ⟨⟨rest, rfl, fun hmem => (havoid v hmem).1 rfl, w, hstep, hrest⟩,
          ?_, ?_⟩
        · exact List.forall_mem_cons.mpr ⟨hv, fun u hu => (havoid u hu).2⟩
        · rw [List.length_cons]
          omega
      · rintro ⟨⟨rest, rfl, hfresh, w, hstep, hrest⟩, havoid, hlength⟩
        obtain ⟨-, havoid⟩ := List.forall_mem_cons.mp havoid
        refine ⟨rest, ⟨w, hstep, hrest, fun u hu => ⟨?_, havoid u hu⟩, ?_⟩, rfl⟩
        · rintro rfl
          exact hfresh hu
        · simpa using hlength

/-- Over ascending neighbours the list is in lexicographic order, and repeats no
route.  Routes through different neighbours differ right after the source. -/
theorem routesFrom_ascending
    (hascending : adj.Ascending)
    (depth : Nat) (avoid : List Nat) (v : Nat) :
    (adj.routesFrom target depth avoid v).Pairwise (· < ·) := by
  fun_induction routesFrom adj target depth avoid v with
  | case1 => exact List.Pairwise.nil
  | case2 => exact List.pairwise_singleton _ _
  | case3 => exact List.Pairwise.nil
  | case4 avoid v hv hne depth ih =>
      rw [List.pairwise_map, List.pairwise_flatMap]
      constructor
      · intro w _
        exact (ih w).imp fun hlt =>
          List.cons_lt_cons_iff.mpr (Or.inr ⟨rfl, hlt⟩)
      · refine (hascending v).imp fun {w w'} hlt x hx y hy => ?_
        obtain ⟨x, rfl⟩ :=
          List.head?_eq_some_iff.mp (mem_routesFrom.mp hx).1.head_eq
        obtain ⟨y, rfl⟩ :=
          List.head?_eq_some_iff.mp (mem_routesFrom.mp hy).1.head_eq
        exact List.cons_lt_cons_iff.mpr
          (Or.inr ⟨rfl, List.cons_lt_cons_iff.mpr (Or.inl hlt)⟩)

end Adjacency

end LinkAnalysis
