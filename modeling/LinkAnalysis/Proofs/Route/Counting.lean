import LinkAnalysis.Proofs.Network.Courses
import LinkAnalysis.Proofs.Route.Enumeration
import LinkAnalysis.Proofs.Route.Shortest
import Mathlib

/-!
# What a search knows

Over any links, a breadth-first search comes to an end and then knows all about
the shortest courses from its source: how long they are, in which order the
nodes are reached, over which links the last steps lead, and how many courses
there are.  In a network no two links join the same nodes, so there a course is
told by its nodes, and the search counts shortest routes.
-/

namespace LinkAnalysis

open Adjacency

/-! ## Shortest courses -/

namespace Geodesics

/-- The search `g` from `s` over the active links is exact. -/
structure IsExact (n : Nat) (ends : Array (Nat × Nat)) (active : List Nat)
    (s : Nat) (g : Geodesics Nat) : Prop where
  explores : Explores (ofEnds n ends active) 0 (start n s) g
  distanceTo_eq_some_iff : ∀ v d, g.distanceTo v = some d ↔
    IsLeast {k | ∃ places, Course ends active s places v ∧ places.length = k} d
  distanceTo_eq_none_iff : ∀ v,
    g.distanceTo v = none ↔ ∀ places, ¬ Course ends active s places v
  order_zero : g.order[0]? = some s
  order_nodup : g.order.toList.Nodup
  mem_order_iff : ∀ v, v ∈ g.order ↔ ∃ places, Course ends active s places v
  order_pairwise : g.order.toList.Pairwise fun v w =>
    ∃ d e, g.distanceTo v = some d ∧ g.distanceTo w = some e ∧ d ≤ e
  mem_predecessorsOf_iff : ∀ v u position, (u, position) ∈ g.predecessorsOf v ↔
    position ∈ active ∧
      Joins ends position u v ∧
      ∃ d, g.distanceTo u = some d ∧ g.distanceTo v = some (d + 1)
  count_predecessorsOf : ∀ v u position, (u, position) ∈ g.predecessorsOf v →
    (g.predecessorsOf v).count (u, position) = active.count position
  encard_shortestCourses : ∀ v,
    (shortestCourses ends active s v).encard = g.countOf v
  encard_links : active.Nodup → ∀ v,
    (List.map (active.getD · 0) '' shortestCourses ends active s v).encard =
      g.countOf v
  countOf_source : g.countOf s = 1
  countOf_unreached : ∀ v, g.distanceTo v = none → g.countOf v = 0

section Exact

variable {n s : Nat} {ends : Array (Nat × Nat)} {active : List Nat}

theorem shortestCourses_eq
    (hrange : InRange n ends active)
    (hs : s < n)
    {v d : Nat}
    (hv : (ofSource (ofEnds n ends active) s : Geodesics Nat).distanceTo v =
      some d) :
    shortestCourses ends active s v =
      {places | places ∈ (ofSource (ofEnds n ends active) s :
            Geodesics Nat).coursesBack ends active d v} := by
  obtain ⟨⟨least, hleast, hlength⟩, hle⟩ :=
    (distanceTo_ofSource_eq_some_iff hrange hs).mp hv
  ext places
  rw [Set.mem_ofPred_eq, mem_coursesBack_iff hrange hs hv]
  constructor
  · rintro ⟨hcourse, hshortest⟩
    exact ⟨hcourse, le_antisymm (hlength ▸ hshortest least hleast)
      (hle ⟨places, hcourse, rfl⟩)⟩
  · rintro ⟨hcourse, rfl⟩
    exact ⟨hcourse, fun other hother => hle ⟨other, hother, rfl⟩⟩

theorem encard_shortestCourses_eq
    (hrange : InRange n ends active)
    (hs : s < n)
    (v : Nat) :
    (shortestCourses ends active s v).encard =
      (ofSource (ofEnds n ends active) s : Geodesics Nat).countOf v := by
  cases hv : (ofSource (ofEnds n ends active) s : Geodesics Nat).distanceTo v
    with
  | none =>
      have hs' : s < (ofEnds n ends active).size := by rwa [size_ofEnds]
      have hnone : shortestCourses ends active s v = ∅ := by
        refine Set.eq_empty_iff_forall_notMem.mpr fun places hplaces => ?_
        have hsome := (isSome_distanceTo_ofSource_iff (α := Nat) hrange hs).mpr
          ⟨places, hplaces.1⟩
        simp [hv] at hsome
      rw [hnone, Set.encard_empty,
        countOf_ofSource_of_none hrange.closed hs' hv]
      rfl
  | some d =>
      rw [shortestCourses_eq hrange hs hv,
        ← (List.finite_toSet _).cast_ncard_eq,
        ncard_mem_eq_length (coursesBack_nodup _ hv),
        countOf_eq_length_coursesBack hrange hs hv]
      rfl

theorem isExact_ofSource
    (hrange : InRange n ends active)
    (hs : s < n) :
    (ofSource (ofEnds n ends active) s : Geodesics Nat).IsExact n ends
      active s := by
  have hs' : s < (ofEnds n ends active).size := by rwa [size_ofEnds]
  have hclosed := hrange.closed
  obtain ⟨e, he⟩ := explored_ofSource (α := Nat) hclosed hs'
  refine
    { explores := by simpa using explores_ofSource (α := Nat) hclosed hs'
      distanceTo_eq_some_iff :=
        fun v d => distanceTo_ofSource_eq_some_iff hrange hs
      distanceTo_eq_none_iff := fun v => ?_
      order_zero := order_ofSource_zero hclosed hs'
      order_nodup := he.order_nodup
      mem_order_iff := fun v => ?_
      order_pairwise := ?_
      mem_predecessorsOf_iff :=
        fun v u position => mem_predecessorsOf_ofSource_iff hrange hs
      count_predecessorsOf := fun v u position hmem => ?_
      encard_shortestCourses := encard_shortestCourses_eq hrange hs
      encard_links := fun hnodup v => ?_
      countOf_source := countOf_ofSource_self hclosed hs'
      countOf_unreached := fun v => countOf_ofSource_of_none hclosed hs' }
  · rw [← Option.not_isSome_iff_eq_none,
      isSome_distanceTo_ofSource_iff hrange hs, not_exists]
  · rw [he.mem_order_iff, isSome_distanceTo_ofSource_iff hrange hs]
  · refine he.order_pairwise.imp_of_mem fun {v w} hv hw hle => ?_
    exact ⟨_, _, he.distanceTo_eq_level (Array.mem_toList_iff.mp hv),
      he.distanceTo_eq_level (Array.mem_toList_iff.mp hw), hle⟩
  · exact count_predecessorsOf_of_mem hrange hs hmem
  · rw [Set.InjOn.encard_image ((injOn_links hnodup v).mono fun _ hin => hin.1),
      encard_shortestCourses_eq hrange hs]

end Exact

end Geodesics

/-! ## Shortest routes -/

/-- The routes to a node that no other one is shorter than. -/
def Adjacency.shortestRoutes (adj : Adjacency)
    (source target : Nat) : Set (List Nat) :=
  {route | adj.Route source target route ∧
    ∀ other, adj.Route source target other → route.length ≤ other.length}

theorem Adjacency.Walk.exists_route
    {adj : Adjacency} {s k v : Nat}
    (hwalk : adj.Walk s k v) :
    ∃ route, adj.Route s v route ∧ route.length = k + 1 := by
  induction hwalk with
  | nil => exact ⟨[s], ⟨rfl, rfl, List.isChain_singleton s⟩, rfl⟩
  | @snoc k v step _ hstep ih =>
      obtain ⟨front, hfront, hlength⟩ := ih
      have hnext : step.1 ∈ adj.nextOf v := mem_nextOf.mpr ⟨step.2, hstep⟩
      exact ⟨front ++ [step.1], route_concat_iff.mpr ⟨rfl,
          Or.inr ⟨v, hnext, hfront⟩⟩, by simp [hlength]⟩

namespace Geodesics

section Routes

variable {α : Type} [NatCast α] [Add α] {adj : Adjacency} {s : Nat}

theorem mem_shortestRoutes_iff
    (hclosed : adj.Closed)
    (hs : s < adj.size)
    {v d : Nat}
    (hv : (ofSource adj s : Geodesics α).distanceTo v = some d)
    {route : List Nat} :
    route ∈ adj.shortestRoutes s v ↔
      adj.Route s v route ∧ route.length = d + 1 := by
  have hle : ∀ {other}, adj.Route s v other → d + 1 ≤ other.length := by
    intro other hother
    obtain ⟨d', hd', hle⟩ := distanceTo_le_of_route (α := α) hclosed hs hother
    obtain rfl := Option.some.inj (hv.symm.trans hd')
    exact hle
  constructor
  · rintro ⟨hroute, hshortest⟩
    obtain ⟨least, hleast, hlength⟩ :=
      (walk_of_distanceTo_ofSource hclosed hs hv).exists_route
    exact ⟨hroute, le_antisymm (hlength ▸ hshortest least hleast) (hle hroute)⟩
  · rintro ⟨hroute, hlength⟩
    exact ⟨hroute, fun other hother => hlength ▸ hle hother⟩

theorem shortestRoutes_eq
    (hclosed : adj.Closed)
    (hs : s < adj.size)
    {v d : Nat}
    (hv : (ofSource adj s : Geodesics α).distanceTo v = some d) :
    adj.shortestRoutes s v =
      {route | route ∈ (ofSource adj s : Geodesics α).routesBack d v} := by
  ext route
  rw [Set.mem_ofPred_eq, mem_shortestRoutes_iff hclosed hs hv,
    mem_routesBack_ofSource hclosed hs hv]

theorem shortestRoutes_of_none
    (hclosed : adj.Closed)
    (hs : s < adj.size)
    {v : Nat}
    (hv : (ofSource adj s : Geodesics α).distanceTo v = none) :
    adj.shortestRoutes s v = ∅ := by
  refine Set.eq_empty_iff_forall_notMem.mpr fun route hroute => ?_
  obtain ⟨d, hd, -⟩ := distanceTo_le_of_route (α := α) hclosed hs hroute.1
  simp [hv] at hd

end Routes

/-- Over ascending neighbours the count of a node is the number of its shortest
routes. -/
theorem encard_shortestRoutes_eq
    {adj : Adjacency} {s : Nat}
    (hclosed : adj.Closed)
    (hs : s < adj.size)
    (hascending : adj.Ascending)
    (v : Nat) :
    (adj.shortestRoutes s v).encard =
      (ofSource adj s : Geodesics Nat).countOf v := by
  cases hv : (ofSource adj s : Geodesics Nat).distanceTo v with
  | none =>
      rw [shortestRoutes_of_none hclosed hs hv, Set.encard_empty,
        countOf_ofSource_of_none hclosed hs hv]
      rfl
  | some d =>
      rw [shortestRoutes_eq hclosed hs hv,
        ← (List.finite_toSet _).cast_ncard_eq,
        ncard_mem_eq_length (routesBack_ofSource_nodup hclosed hs hascending d
          v), countOf_eq_length_routesBack hclosed hs hv]
      rfl

end Geodesics

/-! ## Searches -/

/-- A search over any links between the nodes is exact.  In a network it counts
the shortest routes. -/
theorem ofSource_isExact :
    (∀ (n : Nat) (ends : Array (Nat × Nat)) (active : List Nat),
        InRange n ends active → ∀ s < n,
          (Geodesics.ofSource (ofEnds n ends active) s : Geodesics Nat).IsExact
            n ends active s) ∧
      ∀ (snapshot : Snapshot) (s v : Fin (Network.ofSnapshot snapshot).size),
        ((Network.ofSnapshot snapshot).adjacency.shortestRoutes s v).encard =
          (Geodesics.ofSource (Network.ofSnapshot snapshot).adjacency s :
              Geodesics Nat).countOf v := by
  refine ⟨fun n ends active hrange s hs => Geodesics.isExact_ofSource hrange hs,
    fun snapshot s v => ?_⟩
  exact Geodesics.encard_shortestRoutes_eq (Network.closed_adjacency_ofSnapshot
    snapshot) (Network.lt_size_adjacency_ofSnapshot snapshot s)
    (Network.ascending_adjacency_ofSnapshot snapshot) v

/-- Two links between the first two nodes, a link from the second to itself, and
one to the third. -/
def twinEnds : Array (Nat × Nat) := #[(0, 1), (1, 0), (1, 1), (1, 2)]

theorem ofSource_isExact_twinEnds :
    InRange 3 twinEnds [3, 0, 2, 1] ∧
      0 < 3 ∧
      (Geodesics.ofSource (ofEnds 3 twinEnds [3, 0, 2, 1]) 0 :
          Geodesics Nat).IsExact 3 twinEnds [3, 0, 2, 1] 0 ∧
      (shortestCourses twinEnds [3, 0, 2, 1] 0 2).encard = 2 := by
  have hrange : InRange 3 twinEnds [3, 0, 2, 1] := inRange_iff.mp (by decide)
  have hcount : (Geodesics.ofSource (ofEnds 3 twinEnds [3, 0, 2, 1]) 0 :
          Geodesics Nat).countOf 2 = 2 := by
    cbv
  have hexact := ofSource_isExact.1 3 twinEnds [3, 0, 2, 1] hrange 0 (by decide)
  refine ⟨hrange, by decide, hexact, ?_⟩
  rw [hexact.encard_shortestCourses, hcount]
  rfl

end LinkAnalysis
