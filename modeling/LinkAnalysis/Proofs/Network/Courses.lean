import LinkAnalysis.Proofs.Network.LinkGraph
import Mathlib

/-!
# Courses of links

A course leads from node to node along active links.  Between two nodes there
may be several links, so courses tell apart what the nodes on the way do not.  A
breadth-first search finds how long the shortest courses are, along which links
they arrive, and how many of them there are.
-/

namespace LinkAnalysis

open Adjacency

/-- A link joins two nodes, in this direction or in the other. -/
def Joins (ends : Array (Nat × Nat)) (position u v : Nat) : Prop :=
  ends[position]? = some (u, v) ∨ ends[position]? = some (v, u)

/-- A course of links, one after another, from `s` to a node.  Links are told by
their places among the active ones, so that a link that is active twice counts
as two. -/
inductive Course (ends : Array (Nat × Nat)) (active : List Nat)
    (s : Nat) : List Nat → Nat → Prop
  | nil : Course ends active s [] s
  | snoc {places : List Nat} {u v place position : Nat}
      (hholds : Course ends active s places u)
      (hactive : active[place]? = some position)
      (hjoins : Joins ends position u v) :
      Course ends active s (places ++ [place]) v

/-- The courses to a node that no other one is shorter than. -/
def shortestCourses (ends : Array (Nat × Nat)) (active : List Nat)
    (s v : Nat) : Set (List Nat) :=
  {places | Course ends active s places v ∧
    ∀ other, Course ends active s other v → places.length ≤ other.length}

section Courses

variable {n s : Nat} {ends : Array (Nat × Nat)} {active : List Nat}

theorem course_concat_iff {places : List Nat} {place v : Nat} :
    Course ends active s (places ++ [place]) v ↔ ∃ u position,
      Course ends active s places u ∧
      active[place]? = some position ∧
      Joins ends position u v := by
  constructor
  · generalize hplaces : places ++ [place] = all
    intro hcourse
    cases hcourse with
    | nil => simp at hplaces
    | snoc hcourse hactive hjoins =>
        obtain ⟨rfl, hlast⟩ := List.append_inj' hplaces rfl
        rw [List.singleton_inj] at hlast
        subst hlast
        exact ⟨_, _, hcourse, hactive, hjoins⟩
  · rintro ⟨u, position, hcourse, hactive, hjoins⟩
    exact hcourse.snoc hactive hjoins

theorem Course.lt_length
    {v : Nat} {places : List Nat}
    (hcourse : Course ends active s places v) :
    ∀ place ∈ places, place < active.length := by
  induction hcourse with
  | nil => simp
  | snoc _ hactive _ ih =>
      intro place hplace
      rcases List.mem_append.mp hplace with hplace | hplace
      · exact ih place hplace
      · rw [List.mem_singleton.mp hplace]
        exact (List.getElem?_eq_some_iff.mp hactive).1

/-- Where no link is active twice, a course is told by its links. -/
theorem injOn_links (hnodup : active.Nodup) (v : Nat) :
    Set.InjOn (List.map (active.getD · 0))
      {places | Course ends active s places v} := by
  have hback : ∀ places, Course ends active s places v →
      (places.map (active.getD · 0)).map active.idxOf = places := by
    intro places hcourse
    rw [List.map_map, List.map_congr_left, List.map_id]
    intro place hplace
    have hlt := hcourse.lt_length place hplace
    simp [hlt, hnodup.idxOf_getElem]
  intro places hplaces other hother heq
  rw [← hback places hplaces, ← hback other hother, heq]

theorem mem_endsAt_iff_joins {v position : Nat} {step : Nat × Nat} :
    step ∈ endsAt ends v position ↔
      step.2 = position ∧ Joins ends position step.1 v := by
  rw [mem_endsAt, Joins, or_comm]

theorem count_endsAt_of_ne
    {u v position : Nat}
    (hne : u ≠ v)
    (hjoins : Joins ends position u v) :
    (endsAt ends u position).count (v, position) = 1 := by
  unfold endsAt
  rcases hjoins with hget | hget
  · simp [hget, hne.symm]
  · simp [hget, hne.symm]

theorem mem_neighbors_ofEnds_iff_joins
    (hrange : InRange n ends active)
    {v : Nat} {step : Nat × Nat} :
    step ∈ (ofEnds n ends active).neighbors v ↔
      step.2 ∈ active ∧ Joins ends step.2 step.1 v := by
  rw [mem_neighbors_ofEnds, Joins, or_comm, and_iff_right_iff_imp]
  rintro ⟨hactive, hjoins⟩
  obtain ⟨a, b, hget, ha, hb⟩ := hrange _ hactive
  rcases hjoins with hjoins | hjoins <;> obtain ⟨rfl, rfl⟩ :=
    Prod.mk.inj (Option.some.inj (hget.symm.trans hjoins))
  · exact hb
  · exact ha

theorem Joins.symm {position u v : Nat} (hjoins : Joins ends position u v) :
    Joins ends position v u :=
  Or.symm hjoins

/-- Courses and walks along the neighbours are of the same lengths. -/
theorem walk_ofEnds_iff_exists_course
    (hrange : InRange n ends active)
    {k v : Nat} :
    (ofEnds n ends active).Walk s k v ↔
      ∃ places, Course ends active s places v ∧ places.length = k := by
  constructor
  · intro hwalk
    induction hwalk with
    | nil => exact ⟨[], .nil, rfl⟩
    | @snoc k v step _ hstep ih =>
        obtain ⟨places, hcourse, rfl⟩ := ih
        obtain ⟨hactive, hjoins⟩ :=
          (mem_neighbors_ofEnds_iff_joins hrange).mp hstep
        obtain ⟨place, hplace⟩ := List.mem_iff_getElem?.mp hactive
        exact ⟨places ++ [place], hcourse.snoc hplace hjoins.symm, by simp⟩
  · rintro ⟨places, hcourse, rfl⟩
    induction hcourse with
    | nil => exact .nil
    | @snoc places u v place position _ hactive hjoins ih =>
        rw [List.length_append, List.length_singleton]
        have hstep : (v, position) ∈ (ofEnds n ends active).neighbors u :=
          (mem_neighbors_ofEnds_iff_joins hrange).mpr
            ⟨List.mem_of_getElem? hactive, hjoins.symm⟩
        exact ih.snoc hstep

end Courses

namespace Geodesics

section Found

variable {α : Type} [NatCast α] [Add α] {n s : Nat}
  {ends : Array (Nat × Nat)} {active : List Nat}

/-- The distance of a node is the length of its shortest courses. -/
theorem distanceTo_ofSource_eq_some_iff
    (hrange : InRange n ends active)
    (hs : s < n)
    {v d : Nat} :
    (ofSource (ofEnds n ends active) s : Geodesics α).distanceTo v = some d ↔
      IsLeast {k | ∃ places, Course ends active s places v ∧ places.length = k}
        d := by
  have hs : s < (ofEnds n ends active).size := by rwa [size_ofEnds]
  have hleast : ∀ {k}, (ofSource (ofEnds n ends active) s :
      Geodesics α).distanceTo v = some k → IsLeast {k
      | ∃ places, Course ends active s places v ∧ places.length = k} k := by
    intro k hk
    refine ⟨(walk_ofEnds_iff_exists_course hrange).mp
      (walk_of_distanceTo_ofSource hrange.closed hs hk), fun j hj => ?_⟩
    obtain ⟨k', hk', hle⟩ :=
      distanceTo_ofSource_le_of_walk (α := α) hrange.closed hs
        ((walk_ofEnds_iff_exists_course hrange).mpr hj)
    obtain rfl := Option.some.inj (hk.symm.trans hk')
    exact hle
  refine ⟨hleast, fun hisLeast => ?_⟩
  obtain ⟨k, hk, -⟩ := distanceTo_ofSource_le_of_walk (α := α) hrange.closed hs
    ((walk_ofEnds_iff_exists_course hrange).mpr hisLeast.1)
  rw [hk, (hleast hk).unique hisLeast]

theorem isSome_distanceTo_ofSource_iff
    (hrange : InRange n ends active)
    (hs : s < n)
    {v : Nat} :
    ((ofSource (ofEnds n ends active) s : Geodesics α).distanceTo v).isSome ↔
      ∃ places, Course ends active s places v := by
  have hs' : s < (ofEnds n ends active).size := by rwa [size_ofEnds]
  constructor
  · intro hsome
    obtain ⟨d, hd⟩ := Option.isSome_iff_exists.mp hsome
    obtain ⟨places, hcourse, -⟩ :=
      ((distanceTo_ofSource_eq_some_iff hrange hs).mp hd).1
    exact ⟨places, hcourse⟩
  · rintro ⟨places, hcourse⟩
    obtain ⟨d, hd, -⟩ := distanceTo_ofSource_le_of_walk (α := α) hrange.closed
      hs' ((walk_ofEnds_iff_exists_course hrange).mpr ⟨places, hcourse, rfl⟩)
    rw [hd]
    rfl

/-! ## Last links -/

theorem mem_predecessorsOf_ofSource_iff
    (hrange : InRange n ends active)
    (hs : s < n)
    {u v position : Nat} :
    (u, position) ∈
        (ofSource (ofEnds n ends active) s : Geodesics α).predecessorsOf v ↔
      position ∈ active ∧
        Joins ends position u v ∧
        ∃ d,
          (ofSource (ofEnds n ends active) s : Geodesics α).distanceTo u =
            some d ∧
          (ofSource (ofEnds n ends active) s : Geodesics α).distanceTo v =
            some (d + 1) := by
  have hs : s < (ofEnds n ends active).size := by rwa [size_ofEnds]
  rw [mem_predecessorsOf_ofSource hrange.closed hs,
    mem_neighbors_ofEnds_iff_joins hrange, and_assoc, Joins, Joins, or_comm]

/-- A search follows every link once from each of its ends, so a predecessor is
found as often as the node is listed there. -/
theorem count_predecessorsOf_ofSource
    {adj : Adjacency}
    (hclosed : adj.Closed)
    (hs : s < adj.size)
    {u v position d : Nat}
    (hu : (ofSource adj s : Geodesics α).distanceTo u = some d)
    (hv : (ofSource adj s : Geodesics α).distanceTo v = some (d + 1)) :
    ((ofSource adj s : Geodesics α).predecessorsOf v).count (u, position) =
      (adj.neighbors u).toList.count (v, position) := by
  obtain ⟨e, he⟩ := explored_ofSource (α := α) hclosed hs
  have hmem : u ∈ (ofSource adj s : Geodesics α).order.toList := by
    rw [Array.mem_toList_iff, he.mem_order_iff, hu]
    rfl
  rw [he.predecessorsOf_eq, lastSteps, List.count_filterMap,
    List.countP_flatMap, List.sum_map_eq_nsmul_single u]
  · rw [List.count_eq_one_of_mem he.order_nodup hmem, one_nsmul,
      Function.comp_apply, linksOf, List.countP_map, List.count]
    refine List.countP_congr fun step _ => ?_
    obtain ⟨w, link⟩ := step
    by_cases hw : w = v <;>
      simp [level_of_distanceTo hu, level_of_distanceTo hv, hw]
  · intro w hne _
    rw [Function.comp_apply, List.countP_eq_zero]
    rintro ⟨w', step⟩ hlink hstep
    obtain ⟨hw, -⟩ := mem_linksOf.mp hlink
    simp only [beq_iff_eq, Option.ite_none_right_eq_some, Option.some.injEq,
      Prod.mk.injEq] at hstep
    exact hne (hw.symm.trans hstep.2.1)

/-- The predecessors of a node are those of its neighbours that are one level
below. -/
theorem predecessorsOf_ofSource_perm
    (hrange : InRange n ends active)
    (hs : s < n)
    {v d : Nat}
    (hv : (ofSource (ofEnds n ends active) s : Geodesics α).distanceTo v =
      some (d + 1)) :
    ((ofSource (ofEnds n ends active) s : Geodesics α).predecessorsOf v).Perm
      (((ofEnds n ends active).neighbors v).toList.filter fun step =>
        (ofSource (ofEnds n ends active) s : Geodesics α).distanceTo step.1 =
          some d) := by
  have hs' : s < (ofEnds n ends active).size := by rwa [size_ofEnds]
  have hlt : ∀ {w k},
      (ofSource (ofEnds n ends active) s : Geodesics α).distanceTo w = some k →
        w < n := fun hdist => by
      simpa using lt_of_distanceTo_ofSource hrange.closed hs' hdist
  refine List.perm_iff_count.mpr ?_
  rintro ⟨u, position⟩
  by_cases hu : (ofSource (ofEnds n ends active) s : Geodesics α).distanceTo u =
    some d
  · rw [count_predecessorsOf_ofSource hrange.closed hs' hu hv,
      List.count_filter (by simpa using hu), count_neighbors_ofEnds ends active
      (hlt hu), count_neighbors_ofEnds ends active (hlt hv), count_endsAt_comm]
  · rw [List.count_eq_zero.mpr, List.count_eq_zero.mpr]
    · exact fun hmem => hu (of_decide_eq_true (List.mem_filter.mp hmem).2)
    · intro hmem
      obtain ⟨-, -, d', hd', hv'⟩ :=
        (mem_predecessorsOf_ofSource_iff hrange hs).mp hmem
      obtain rfl : d = d' := by simpa [hv] using hv'
      exact hu hd'

/-- A predecessor is listed once for each time that its link is active. -/
theorem count_predecessorsOf_of_mem
    (hrange : InRange n ends active)
    (hs : s < n)
    {u v position : Nat}
    (hmem : (u, position) ∈
      (ofSource (ofEnds n ends active) s : Geodesics α).predecessorsOf v) :
    ((ofSource (ofEnds n ends active) s : Geodesics α).predecessorsOf v).count
        (u, position) = active.count position := by
  have hs' : s < (ofEnds n ends active).size := by rwa [size_ofEnds]
  obtain ⟨-, hjoins, d, hu, hv⟩ :=
    (mem_predecessorsOf_ofSource_iff hrange hs).mp hmem
  have hlt : u < n := by
    simpa using lt_of_distanceTo_ofSource hrange.closed hs' hu
  have hne : u ≠ v := by
    rintro rfl
    simp [hu] at hv
  rw [count_predecessorsOf_ofSource hrange.closed hs' hu hv,
    count_neighbors_ofEnds ends active hlt, count_endsAt_of_ne hne hjoins,
    Nat.mul_one]

end Found

end Geodesics

/-! ## Listing the shortest courses -/

section Steps

variable {ends : Array (Nat × Nat)} {active : List Nat}

/-- The steps that arrive at a node: where each comes from, and the place of its
link. -/
def stepsAt (ends : Array (Nat × Nat)) (active : List Nat)
    (v : Nat) : List (Nat × Nat) :=
  active.zipIdx.flatMap fun (position, place) =>
    (endsAt ends v position).map fun step => (step.1, place)

theorem mem_stepsAt {u v place : Nat} :
    (u, place) ∈ stepsAt ends active v ↔
      ∃ position, active[place]? = some position ∧ Joins ends position u v := by
  simp only [stepsAt, List.mem_flatMap, Prod.exists,
    List.mem_zipIdx_iff_getElem?, List.mem_map, mem_endsAt_iff_joins,
    Prod.mk.injEq]
  constructor
  · rintro ⟨position, place, hplace, u, _, ⟨rfl, hjoins⟩, rfl, rfl⟩
    exact ⟨_, hplace, hjoins⟩
  · rintro ⟨position, hplace, hjoins⟩
    exact ⟨position, place, hplace, u, position, ⟨rfl, hjoins⟩, rfl, rfl⟩

theorem map_fst_stepsAt (v : Nat) :
    (stepsAt ends active v).map Prod.fst =
      (active.flatMap (endsAt ends v)).map Prod.fst := by
  have hactive : active.flatMap (endsAt ends v) =
      active.zipIdx.flatMap fun item => endsAt ends v item.1 := by
    conv_lhs => rw [← List.zipIdx_map_fst 0 active, List.flatMap_map]
  rw [stepsAt, hactive, List.map_flatMap, List.map_flatMap]
  simp only [List.map_map, Function.comp_def]

/-- Steps from elsewhere use different links: a link between two nodes arrives
at one of them from the other alone. -/
theorem map_snd_filter_stepsAt_nodup
    {v : Nat} {p : Nat × Nat → Bool}
    (hp : ∀ place, p (v, place) = false) :
    (((stepsAt ends active v).filter p).map Prod.snd).Nodup := by
  rw [stepsAt, List.filter_flatMap, List.map_flatMap, List.nodup_flatMap]
  constructor
  · rintro ⟨position, place⟩ -
    simp only [endsAt]
    cases ends[position]? with
    | none => exact List.nodup_nil
    | some pair =>
        obtain ⟨a, b⟩ := pair
        by_cases ha : a = v <;> by_cases hb : b = v <;>
          simp only [ha, hb, hp, if_true, if_false, List.append_nil,
            List.nil_append, List.singleton_append, List.map_cons,
            List.map_nil, List.filter_cons, List.filter_nil, Bool.false_eq_true,
            List.nodup_nil]
        all_goals split <;> simp
  · have hplaces : (active.zipIdx.map Prod.snd).Nodup :=
      List.nodup_zipIdx_map_snd active
    refine (List.pairwise_map.mp hplaces).imp ?_
    rintro ⟨_, place⟩ ⟨_, place'⟩ hne x hx hy
    simp only [List.mem_map, List.mem_filter] at hx hy
    obtain ⟨_, ⟨⟨_, -, rfl⟩, -⟩, rfl⟩ := hx
    obtain ⟨_, ⟨⟨_, -, rfl⟩, -⟩, heq⟩ := hy
    exact hne heq.symm

end Steps

namespace Geodesics

/-- All shortest courses to a node at this distance, found by going back over
its last links. -/
def coursesBack {α : Type} (ends : Array (Nat × Nat)) (active : List Nat)
    (g : Geodesics α) : Nat → Nat → List (List Nat)
  | 0, _ => [[]]
  | nearer + 1, v =>
    ((stepsAt ends active v).filter fun step => g.distanceTo step.1 =
      some nearer).flatMap fun step =>
      (g.coursesBack ends active nearer step.1).map (· ++ [step.2])

theorem coursesBack_nodup
    {α : Type} {ends : Array (Nat × Nat)} {active : List Nat} (g : Geodesics α)
    {away v : Nat}
    (hv : g.distanceTo v = some away) :
    (g.coursesBack ends active away v).Nodup := by
  induction away generalizing v with
  | zero => exact List.nodup_singleton _
  | succ away ih =>
      rw [coursesBack, List.nodup_flatMap]
      constructor
      · rintro ⟨u, place⟩ hstep
        exact (ih (of_decide_eq_true (List.mem_filter.mp hstep).2)).map
          fun front front' heq => List.append_cancel_right heq
      · have hplaces : (((stepsAt ends active v).filter fun step =>
              g.distanceTo step.1 = some away).map Prod.snd).Nodup :=
          map_snd_filter_stepsAt_nodup (by simp [hv])
        refine (List.pairwise_map.mp hplaces).imp ?_
        rintro ⟨_, place⟩ ⟨_, place'⟩ hne x hx hy
        obtain ⟨front, -, rfl⟩ := List.mem_map.mp hx
        obtain ⟨front', -, heq⟩ := List.mem_map.mp hy
        exact hne (List.singleton_inj.mp (List.append_inj' heq rfl).2).symm

section Found

variable {α : Type} [NatCast α] [Add α] {n s : Nat}
  {ends : Array (Nat × Nat)} {active : List Nat}

/-- The node before the last is reached one link sooner, and not sooner than
that. -/
theorem distanceTo_ofSource_of_course
    (hrange : InRange n ends active)
    (hs : s < n)
    {u v place position : Nat} {front : List Nat}
    (hv : (ofSource (ofEnds n ends active) s : Geodesics α).distanceTo v =
      some (front.length + 1))
    (hfront : Course ends active s front u)
    (hactive : active[place]? = some position)
    (hjoins : Joins ends position u v) :
    (ofSource (ofEnds n ends active) s : Geodesics α).distanceTo u =
      some front.length := by
  rw [distanceTo_ofSource_eq_some_iff hrange hs] at hv ⊢
  refine ⟨⟨front, hfront, rfl⟩, ?_⟩
  rintro k ⟨places, hplaces, rfl⟩
  have hle : front.length + 1 ≤ places.length + 1 :=
    hv.2 ⟨places ++ [place], hplaces.snoc hactive hjoins, by simp⟩
  omega

theorem mem_coursesBack_iff
    (hrange : InRange n ends active)
    (hs : s < n)
    {v away : Nat}
    (hv : (ofSource (ofEnds n ends active) s : Geodesics α).distanceTo v =
      some away)
    {places : List Nat} :
    places ∈ (ofSource (ofEnds n ends active) s : Geodesics α).coursesBack ends
        active away v ↔
      Course ends active s places v ∧ places.length = away := by
  have hs' : s < (ofEnds n ends active).size := by rwa [size_ofEnds]
  induction away generalizing v places with
  | zero =>
      obtain rfl := (distanceTo_ofSource_eq_zero_iff hrange.closed hs').mp hv
      rw [coursesBack, List.mem_singleton, List.length_eq_zero_iff]
      exact ⟨fun hnil => ⟨hnil ▸ .nil, hnil⟩, And.right⟩
  | succ away ih =>
      simp only [coursesBack, List.mem_flatMap, List.mem_filter,
        decide_eq_true_eq, List.mem_map, Prod.exists, mem_stepsAt]
      constructor
      · rintro ⟨u, place, ⟨⟨position, hactive, hjoins⟩, hu⟩, front, hfront, rfl⟩
        obtain ⟨hcourse, hlength⟩ := (ih hu).mp hfront
        exact ⟨hcourse.snoc hactive hjoins, by simp [hlength]⟩
      · rintro ⟨hcourse, hlength⟩
        rcases List.eq_nil_or_concat places with rfl | ⟨front, place, rfl⟩
        · simp at hlength
        rw [List.concat_eq_append] at hcourse hlength ⊢
        obtain rfl : front.length = away := by simpa using hlength
        obtain ⟨u, position, hfront, hactive, hjoins⟩ :=
          course_concat_iff.mp hcourse
        have hu :=
          distanceTo_ofSource_of_course hrange hs hv hfront hactive hjoins
        exact ⟨u, place, ⟨⟨position, hactive, hjoins⟩, hu⟩, front,
          (ih hu).mpr ⟨hfront, rfl⟩, rfl⟩

/-- The predecessors of a node are where its steps from one level below come
from. -/
theorem map_fst_predecessorsOf_ofSource_perm
    (hrange : InRange n ends active)
    (hs : s < n)
    {v d : Nat}
    (hv : (ofSource (ofEnds n ends active) s : Geodesics α).distanceTo v =
      some (d + 1)) :
    (((ofSource (ofEnds n ends active) s : Geodesics α).predecessorsOf v).map
        Prod.fst).Perm (((stepsAt ends active v).filter fun step =>
        (ofSource (ofEnds n ends active) s : Geodesics α).distanceTo step.1 =
        some d).map Prod.fst) := by
  have hs' : s < (ofEnds n ends active).size := by rwa [size_ofEnds]
  have hlt : v < n := by
    simpa using lt_of_distanceTo_ofSource hrange.closed hs' hv
  have hfilter : ∀ steps : List (Nat × Nat),
      (steps.filter fun step =>
        (ofSource (ofEnds n ends active) s : Geodesics α).distanceTo step.1 =
          some d).map Prod.fst =
      (steps.map Prod.fst).filter fun u =>
        (ofSource (ofEnds n ends active) s : Geodesics α).distanceTo u =
          some d := by
    intro steps
    rw [List.filter_map]
    rfl
  refine ((predecessorsOf_ofSource_perm hrange hs hv).map Prod.fst).trans ?_
  rw [hfilter, hfilter, map_fst_stepsAt]
  exact ((neighbors_ofEnds_perm ends active hlt).map Prod.fst).filter _

end Found

section Counts

variable {α : Type} [AddCommMonoidWithOne α] {n s : Nat}
  {ends : Array (Nat × Nat)} {active : List Nat}

/-- The count of a node is the number of its shortest courses. -/
theorem countOf_eq_length_coursesBack
    (hrange : InRange n ends active)
    (hs : s < n)
    {v away : Nat}
    (hv : (ofSource (ofEnds n ends active) s : Geodesics α).distanceTo v =
      some away) :
    (ofSource (ofEnds n ends active) s : Geodesics α).countOf v =
      ((ofSource (ofEnds n ends active) s : Geodesics α).coursesBack ends active
          away v).length := by
  have hs' : s < (ofEnds n ends active).size := by rwa [size_ofEnds]
  induction away generalizing v with
  | zero =>
      obtain rfl := (distanceTo_ofSource_eq_zero_iff hrange.closed hs').mp hv
      exact countOf_ofSource_self hrange.closed hs'
  | succ away ih =>
      have hne := ne_source_of_distanceTo_ofSource hrange.closed hs' hv
      have hperm := map_fst_predecessorsOf_ofSource_perm hrange hs hv
      set g : Geodesics α := ofSource (ofEnds n ends active) s with hg
      calc g.countOf v
          = (((g.predecessorsOf v).map Prod.fst).map g.countOf).sum :=
            countOf_ofSource_eq_sum hrange.closed hs' hne
        _ = (((stepsAt ends active v).filter fun step =>
              g.distanceTo step.1 = some away).map fun step =>
                g.countOf step.1).sum := by
            rw [(hperm.map _).sum_eq, List.map_map]
            rfl
        _ = (((stepsAt ends active v).filter fun step =>
                g.distanceTo step.1 = some away).map fun step =>
                ((g.coursesBack ends active away step.1).length : α)).sum := by
            refine congrArg List.sum (List.map_congr_left fun step hstep => ?_)
            exact ih (of_decide_eq_true (List.mem_filter.mp hstep).2)
        _ = ((g.coursesBack ends active (away + 1) v).length : α) := by
            rw [coursesBack, List.length_flatMap, Nat.cast_list_sum,
              List.map_map]
            simp only [List.length_map, Function.comp_def]

end Counts

end Geodesics

end LinkAnalysis
