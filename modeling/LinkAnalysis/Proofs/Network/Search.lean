import LinkAnalysis.Network.Geodesics
import Mathlib.Data.List.Nodup
import Mathlib.Tactic

/-!
# Breadth-first search

A search follows links one at a time.  The invariant below speaks of the links
followed so far: both their ends are discovered, the far end at most one level
beyond the near one; the predecessors of a node are read off the followed links
that climb to it; and its count is the sum over its predecessors.  The sum is
never out of date, because links are followed level by level: once a node is a
predecessor, no link that is still to be followed climbs to it.

At the end the followed links are all links of all discovered nodes.  Hence the
levels are the lengths of the shortest walks.
-/

namespace LinkAnalysis

/-! ## Entries of tables -/

theorem getD_replicate_self {β : Type} (n i : Nat) (d : β) :
    (Array.replicate n d).getD i d = d := by
  rw [Array.getD_eq_getD_getElem?, Array.getElem?_replicate]
  split <;> rfl

theorem getD_setIfInBounds
    {β : Type} (xs : Array β) (i j : Nat) (x d : β) :
    (xs.setIfInBounds i x).getD j d =
      if j = i ∧ i < xs.size then x else xs.getD j d := by
  simp only [Array.getD_eq_getD_getElem?, Array.getElem?_setIfInBounds]
  by_cases hj : j = i
  · subst j
    by_cases hi : i < xs.size <;> simp [hi]
  · simp [hj, Ne.symm hj]

theorem getD_modify
    {β : Type} (xs : Array β) (i j : Nat) (f : β → β) (d : β) :
    (xs.modify i f).getD j d =
      if j = i ∧ i < xs.size then f (xs.getD i d) else xs.getD j d := by
  simp only [Array.getD_eq_getD_getElem?, Array.getElem?_modify]
  by_cases hj : j = i
  · subst j
    by_cases hi : i < xs.size <;> simp [hi]
  · simp [hj, Ne.symm hj]

/-! ## Walks in a table -/

namespace Adjacency

def Closed (adj : Adjacency) : Prop :=
  ∀ v, ∀ step ∈ adj.neighbors v, step.1 < adj.size

/-- A walk of so many links leads from `s` to a node. -/
inductive Walk (adj : Adjacency) (s : Nat) : Nat → Nat → Prop
  | nil : Walk adj s 0 s
  | snoc {k v : Nat} {step : Nat × Nat} :
      Walk adj s k v → step ∈ adj.neighbors v → Walk adj s (k + 1) step.1

def linksOf (adj : Adjacency) (v : Nat) : List (Nat × (Nat × Nat)) :=
  (adj.neighbors v).toList.map fun step => (v, step)

theorem mem_linksOf
    {adj : Adjacency} {v : Nat} {link : Nat × (Nat × Nat)} :
    link ∈ adj.linksOf v ↔ link.1 = v ∧ link.2 ∈ adj.neighbors v := by
  obtain ⟨u, step⟩ := link
  simp only [linksOf, List.mem_map, Array.mem_toList_iff, Prod.mk.injEq]
  constructor
  · rintro ⟨step', hstep, rfl, rfl⟩
    exact ⟨rfl, hstep⟩
  · rintro ⟨rfl, hstep⟩
    exact ⟨step, hstep, rfl, rfl⟩

end Adjacency

namespace Geodesics

variable {α : Type}

def level (g : Geodesics α) (v : Nat) : Nat := (g.distanceTo v).getD 0

theorem level_of_distanceTo
    {g : Geodesics α} {v k : Nat}
    (hdist : g.distanceTo v = some k) :
    g.level v = k := by
  simp [level, hdist]

/-- The last steps to a node along followed links that climb to it. -/
def lastSteps (g : Geodesics α) (followed : List (Nat × (Nat × Nat)))
    (w : Nat) : List (Nat × Nat) :=
  followed.filterMap fun link =>
    if link.2.1 = w ∧ g.level w = g.level link.1 + 1 then
      some (link.1, link.2.2)
    else none

theorem mem_lastSteps
    {g : Geodesics α} {followed : List (Nat × (Nat × Nat))} {w : Nat}
    {step : Nat × Nat} :
    step ∈ g.lastSteps followed w ↔
      (step.1, (w, step.2)) ∈ followed ∧ g.level w = g.level step.1 + 1 := by
  obtain ⟨v, e⟩ := step
  simp only [lastSteps, List.mem_filterMap, Option.ite_none_right_eq_some,
    Option.some.injEq, Prod.mk.injEq]
  constructor
  · rintro ⟨⟨v', w', e'⟩, hmem, ⟨rfl, hlevel⟩, rfl, rfl⟩
    exact ⟨hmem, hlevel⟩
  · rintro ⟨hmem, hlevel⟩
    exact ⟨(v, (w, e)), hmem, ⟨rfl, hlevel⟩, rfl, rfl⟩

theorem lastSteps_congr
    {g g' : Geodesics α} {followed : List (Nat × (Nat × Nat))}
    (hlevel : ∀ link ∈ followed,
      g'.level link.1 = g.level link.1 ∧ g'.level link.2.1 = g.level link.2.1)
    (w : Nat) :
    g'.lastSteps followed w = g.lastSteps followed w := by
  apply List.filterMap_congr
  intro link hlink
  obtain ⟨hnear, hfar⟩ := hlevel link hlink
  by_cases hw : link.2.1 = w
  · subst w
    rw [hnear, hfar]
  · simp [hw]

theorem lastSteps_concat
    (g : Geodesics α) (followed : List (Nat × (Nat × Nat))) (v : Nat)
    (step : Nat × Nat) (w : Nat) :
    g.lastSteps (followed ++ [(v, step)]) w = g.lastSteps followed w ++
      if step.1 = w ∧ g.level w = g.level v + 1 then [(v, step.2)] else [] := by
  simp only [lastSteps, List.filterMap_append, List.filterMap_cons,
    List.filterMap_nil]
  split <;> simp_all

/-! ## Steps of a search -/

theorem discover_of_isSome
    {g : Geodesics α} {distance w : Nat}
    (hsome : (g.distanceTo w).isSome) :
    g.discover distance w = g := by
  unfold discover
  cases hw : g.distanceTo w with
  | none => simp [hw] at hsome
  | some k => simp

theorem discover_of_none
    {g : Geodesics α} {distance w : Nat}
    (hunseen : g.distanceTo w = none) :
    g.discover distance w =
      { g with
        distances := g.distances.setIfInBounds w (some distance)
        order := g.order.push w } := by
  simp [discover, hunseen]

theorem order_discover_of_none
    {g : Geodesics α} {distance w : Nat}
    (hunseen : g.distanceTo w = none) :
    (g.discover distance w).order = g.order.push w := by
  rw [discover_of_none hunseen]

@[simp] theorem source_discover (g : Geodesics α) (distance w : Nat) :
    (g.discover distance w).source = g.source := by
  unfold discover
  split <;> rfl

@[simp] theorem size_distances_discover (g : Geodesics α) (distance w : Nat) :
    (g.discover distance w).distances.size = g.distances.size := by
  unfold discover
  split <;> simp

@[simp] theorem counts_discover (g : Geodesics α) (distance w : Nat) :
    (g.discover distance w).counts = g.counts := by
  unfold discover
  split <;> rfl

@[simp] theorem predecessors_discover (g : Geodesics α) (distance w : Nat) :
    (g.discover distance w).predecessors = g.predecessors := by
  unfold discover
  split <;> rfl

theorem distanceTo_discover_of_none
    {g : Geodesics α} {distance w : Nat}
    (hw : w < g.distances.size)
    (hunseen : g.distanceTo w = none)
    (x : Nat) :
    (g.discover distance w).distanceTo x =
      if x = w then some distance else g.distanceTo x := by
  rw [discover_of_none hunseen]
  simp only [distanceTo, getD_setIfInBounds, hw, and_true]

/-- Discovered nodes keep their place and their distance. -/
structure Extends (g g' : Geodesics α) : Prop where
  order_append : ∃ more, g'.order.toList = g.order.toList ++ more
  distanceTo_eq :
    ∀ v, (g.distanceTo v).isSome → g'.distanceTo v = g.distanceTo v

theorem Extends.refl (g : Geodesics α) : g.Extends g :=
  ⟨⟨[], by simp⟩, fun _ _ => rfl⟩

theorem Extends.trans
    {g g' k : Geodesics α}
    (hgh : g.Extends g')
    (hhk : g'.Extends k) :
    g.Extends k := by
  obtain ⟨more, hmore⟩ := hgh.order_append
  obtain ⟨rest, hrest⟩ := hhk.order_append
  refine ⟨⟨more ++ rest, by rw [hrest, hmore, List.append_assoc]⟩,
    fun v hv => ?_⟩
  rw [hhk.distanceTo_eq v (by rwa [hgh.distanceTo_eq v hv]),
    hgh.distanceTo_eq v hv]

theorem Extends.mem_order
    {g g' : Geodesics α}
    (hext : g.Extends g')
    {v : Nat}
    (hv : v ∈ g.order) :
    v ∈ g'.order := by
  obtain ⟨more, hmore⟩ := hext.order_append
  rw [← Array.mem_toList_iff, hmore]
  exact List.mem_append_left _ (Array.mem_toList_iff.mpr hv)

theorem Extends.level_eq
    {g g' : Geodesics α}
    (hext : g.Extends g')
    {v : Nat}
    (hv : (g.distanceTo v).isSome) :
    g'.level v = g.level v := by
  rw [level, hext.distanceTo_eq v hv, level]

theorem extends_discover (g : Geodesics α) (distance w : Nat) :
    g.Extends (g.discover distance w) := by
  cases hunseen : g.distanceTo w with
  | none =>
      refine ⟨⟨[w], by simp [order_discover_of_none hunseen]⟩, fun v hv => ?_⟩
      have hne : w ≠ v := by
        rintro rfl
        simp [hunseen] at hv
      rw [discover_of_none hunseen]
      simp [distanceTo, hne]
  | some k =>
      rw [discover_of_isSome (by simp [hunseen])]
      exact Extends.refl g

/-- One more node of the order is one that was discovered before. -/
theorem Extends.take_succ
    {g g' : Geodesics α}
    (hext : g.Extends g')
    {head v : Nat}
    (hget : g.order[head]? = some v) :
    g'.order.toList.take (head + 1) = g.order.toList.take head ++ [v] := by
  obtain ⟨more, hmore⟩ := hext.order_append
  obtain ⟨hlt, -⟩ := Array.getElem?_eq_some_iff.mp hget
  have hat : g'.order.toList[head]? = some v := by
    rw [hmore, List.getElem?_append_left (by simpa using hlt),
      Array.getElem?_toList, hget]
  rw [List.take_add_one, hat, hmore,
    List.take_append_of_le_length (by simpa using hlt.le)]
  rfl

/-! ## Discovered nodes -/

/-- A search from `s` has discovered nodes of levels up to `d + 1`. -/
structure Discovered (adj : Adjacency) (s : Nat) (g : Geodesics α)
    (d : Nat) : Prop where
  source_eq : g.source = s
  size_distances : g.distances.size = adj.size
  mem_order_iff : ∀ v, v ∈ g.order ↔ (g.distanceTo v).isSome
  order_nodup : g.order.toList.Nodup
  order_pairwise : g.order.toList.Pairwise fun v w => g.level v ≤ g.level w
  level_le : ∀ v, g.level v ≤ d + 1
  distanceTo_source : g.distanceTo s = some 0
  walk_of_distanceTo : ∀ v k, g.distanceTo v = some k → adj.Walk s k v

namespace Discovered

variable {adj : Adjacency} {s d : Nat} {g : Geodesics α}

theorem distanceTo_eq_level
    (hdiscovered : Discovered adj s g d)
    {v : Nat}
    (hv : v ∈ g.order) :
    g.distanceTo v = some (g.level v) := by
  obtain ⟨k, hk⟩ :=
    Option.isSome_iff_exists.mp ((hdiscovered.mem_order_iff v).mp hv)
  rw [level_of_distanceTo hk, hk]

theorem lt_size_of_mem_order
    (hdiscovered : Discovered adj s g d)
    {v : Nat}
    (hv : v ∈ g.order) :
    v < adj.size := by
  have hsome := (hdiscovered.mem_order_iff v).mp hv
  by_contra hge
  rw [distanceTo, Array.getD_eq_getD_getElem?,
    Array.getElem?_eq_none (by rw [hdiscovered.size_distances]; omega)] at hsome
  simp at hsome

theorem size_order_le (hdiscovered : Discovered adj s g d) :
    g.order.size ≤ adj.size := by
  have hsubset : g.order.toList ⊆ List.range adj.size := by
    intro v hv
    exact List.mem_range.mpr
      (hdiscovered.lt_size_of_mem_order (Array.mem_toList_iff.mp hv))
  simpa using (hdiscovered.order_nodup.subperm hsubset).length_le

theorem level_le_of_lt
    (hdiscovered : Discovered adj s g d)
    {i j v w : Nat}
    (hij : i < j)
    (hv : g.order[i]? = some v)
    (hw : g.order[j]? = some w) :
    g.level v ≤ g.level w := by
  obtain ⟨hltV, rfl⟩ := Array.getElem?_eq_some_iff.mp hv
  obtain ⟨hltW, rfl⟩ := Array.getElem?_eq_some_iff.mp hw
  exact List.pairwise_iff_getElem.mp hdiscovered.order_pairwise i j
    (by simpa using hltV) (by simpa using hltW) hij

theorem discover
    (hdiscovered : Discovered adj s g d)
    (hclosed : adj.Closed)
    {v : Nat} {step : Nat × Nat}
    (hv : v ∈ g.order)
    (hlevel : g.level v = d)
    (hstep : step ∈ adj.neighbors v) :
    Discovered adj s (g.discover (d + 1) step.1) d := by
  cases hfar : g.distanceTo step.1 with
  | some k => rwa [discover_of_isSome (by simp [hfar])]
  | none =>
      have hlt : step.1 < g.distances.size := by
        rw [hdiscovered.size_distances]
        exact hclosed v step hstep
      have hnew : step.1 ∉ g.order := by
        rw [hdiscovered.mem_order_iff, hfar]
        simp
      have hdistance : ∀ x, (g.discover (d + 1) step.1).distanceTo x =
          if x = step.1 then some (d + 1) else g.distanceTo x :=
        distanceTo_discover_of_none hlt hfar
      have horder : (g.discover (d + 1) step.1).order = g.order.push step.1 :=
        order_discover_of_none hfar
      have hold : ∀ x ∈ g.order,
          (g.discover (d + 1) step.1).level x = g.level x :=
        fun x hx => (extends_discover g (d + 1) step.1).level_eq
          ((hdiscovered.mem_order_iff x).mp hx)
      refine
        { source_eq := by simpa using hdiscovered.source_eq
          size_distances := by simpa using hdiscovered.size_distances
          mem_order_iff := fun x => ?_
          order_nodup := ?_
          order_pairwise := ?_
          level_le := fun x => ?_
          distanceTo_source := ?_
          walk_of_distanceTo := fun x k hk => ?_ }
      · rw [horder, Array.mem_push, hdistance, hdiscovered.mem_order_iff]
        by_cases hx : x = step.1 <;> simp [hx]
      · rw [horder, Array.toList_push, ← List.concat_eq_append]
        exact hdiscovered.order_nodup.concat (by simpa using hnew)
      · rw [horder, Array.toList_push, List.pairwise_append]
        refine ⟨?_, by simp, fun x hx y hy => ?_⟩
        · apply hdiscovered.order_pairwise.imp_of_mem
          intro x y hx hy hle
          rwa [hold _ (by simpa using hx), hold _ (by simpa using hy)]
        · rw [List.mem_singleton] at hy
          subst y
          rw [hold x (by simpa using hx), level, level, hdistance, if_pos rfl]
          exact hdiscovered.level_le x
      · rw [level, hdistance]
        split
        · simp
        · exact hdiscovered.level_le x
      · rw [hdistance, hdiscovered.distanceTo_source, if_neg]
        intro heq
        rw [← heq, hdiscovered.distanceTo_source] at hfar
        simp at hfar
      · rw [hdistance] at hk
        split at hk
        · obtain rfl := Option.some.inj hk
          subst x
          have hwalk := hdiscovered.walk_of_distanceTo v (g.level v)
            (hdiscovered.distanceTo_eq_level hv)
          rw [hlevel] at hwalk
          exact hwalk.snoc hstep
        · exact hdiscovered.walk_of_distanceTo x k hk

end Discovered

/-! ## Before the search -/

variable [NatCast α]

theorem distanceTo_start
    {n s : Nat}
    (hs : s < n)
    (v : Nat) :
    (start n s : Geodesics α).distanceTo v =
      if v = s then some 0 else none := by
  simp only [distanceTo, start, getD_setIfInBounds, getD_replicate_self,
    Array.size_replicate, hs, and_true]

theorem countOf_start
    {n s : Nat}
    (hs : s < n)
    (v : Nat) :
    (start n s : Geodesics α).countOf v =
      if v = s then ((1 : Nat) : α) else ((0 : Nat) : α) := by
  simp only [countOf, start, getD_setIfInBounds, getD_replicate_self,
    Array.size_replicate, hs, and_true]

theorem predecessorsOf_start (n s v : Nat) :
    (start n s : Geodesics α).predecessorsOf v = [] :=
  getD_replicate_self n v []

theorem Discovered.start
    {adj : Adjacency} {s : Nat}
    (hs : s < adj.size) :
    Discovered adj s (Geodesics.start adj.size s : Geodesics α) 0 := by
  have hdistance := distanceTo_start (α := α) hs
  refine
    { source_eq := rfl
      size_distances := by simp [Geodesics.start]
      mem_order_iff := fun v => ?_
      order_nodup := by simp [Geodesics.start]
      order_pairwise := by simp [Geodesics.start]
      level_le := fun v => ?_
      distanceTo_source := by simp [hdistance]
      walk_of_distanceTo := fun v k hk => ?_ }
  · rw [hdistance]
    by_cases hv : v = s <;> simp [Geodesics.start, hv]
  · rw [level, hdistance]
    split <;> simp
  · rw [hdistance] at hk
    split at hk
    · obtain rfl := Option.some.inj hk
      subst v
      exact .nil
    · simp at hk

/-! ## Followed links -/

variable [Add α]

def record (v : Nat) (g : Geodesics α) (step : Nat × Nat) : Geodesics α :=
  { g with
    counts := g.counts.modify step.1 (· + g.countOf v)
    predecessors := g.predecessors.modify step.1 (· ++ [(v, step.2)]) }

theorem follow_eq
    (v distance : Nat) (g : Geodesics α) (step : Nat × Nat) :
    g.follow v distance step =
      if (g.discover distance step.1).distanceTo step.1 = some distance then
        (g.discover distance step.1).record v step
      else g.discover distance step.1 :=
  rfl

theorem countOf_record
    {v : Nat} {g : Geodesics α} {step : Nat × Nat}
    (hstep : step.1 < g.counts.size)
    (x : Nat) :
    (g.record v step).countOf x =
      if x = step.1 then g.countOf step.1 + g.countOf v else g.countOf x := by
  simp only [record, countOf, getD_modify, hstep, and_true]

theorem predecessorsOf_record
    {v : Nat} {g : Geodesics α} {step : Nat × Nat}
    (hstep : step.1 < g.predecessors.size)
    (x : Nat) :
    (g.record v step).predecessorsOf x =
      if x = step.1 then g.predecessorsOf step.1 ++ [(v, step.2)]
      else g.predecessorsOf x := by
  simp only [record, predecessorsOf, getD_modify, hstep, and_true]

theorem mem_predecessorsOf_record
    {g : Geodesics α} {v w : Nat} {step step' : Nat × Nat}
    (hmem : step' ∈ (g.record v step).predecessorsOf w) :
    step' ∈ g.predecessorsOf w ∨ step' = (v, step.2) := by
  rw [predecessorsOf, record, getD_modify] at hmem
  split at hmem
  case isTrue hw => simpa [predecessorsOf, hw.1] using hmem
  case isFalse => exact Or.inl hmem

theorem extends_follow
    (g : Geodesics α) (v distance : Nat) (step : Nat × Nat) :
    g.Extends (g.follow v distance step) := by
  have hdiscover := extends_discover g distance step.1
  rw [follow_eq]
  split
  · exact ⟨hdiscover.order_append, hdiscover.distanceTo_eq⟩
  · exact hdiscover

theorem extends_foldl_follow
    (v distance : Nat) (steps : List (Nat × Nat)) (g : Geodesics α) :
    g.Extends (steps.foldl (follow v distance) g) := by
  induction steps generalizing g with
  | nil => exact Extends.refl g
  | cons step more ih => exact (extends_follow g v distance step).trans (ih _)

theorem extends_visit
    (g : Geodesics α) (adj : Adjacency) (v : Nat) :
    g.Extends (g.visit adj v) := by
  unfold visit
  rw [← Array.foldl_toList]
  exact extends_foldl_follow _ _ _ g

/-- The visits of a search with no bound on their number: from position `head`
of the order on, as long as there is a node at the next position. -/
inductive Explores (adj : Adjacency) : Nat → Geodesics α → Geodesics α → Prop
  | finish {head : Nat} {g : Geodesics α} (hget : g.order[head]? = none) :
      Explores adj head g g
  | visit {head v : Nat} {g g' : Geodesics α} (hget : g.order[head]? = some v)
      (hrest : Explores adj (head + 1) (g.visit adj v) g') :
      Explores adj head g g'

theorem Explores.extends
    {adj : Adjacency} {head : Nat} {g g' : Geodesics α}
    (hexplores : Explores adj head g g') :
    g.Extends g' := by
  induction hexplores with
  | finish _ => exact Extends.refl _
  | @visit _ v g _ _ _ ih => exact (extends_visit g adj v).trans ih

/-- A search from `s` has followed these links, all of them from levels up to
`d`. -/
structure Explored (adj : Adjacency) (s : Nat) (g : Geodesics α)
    (followed : List (Nat × (Nat × Nat))) (d : Nat) : Prop
    extends Discovered adj s g d where
  size_counts : g.counts.size = adj.size
  size_predecessors : g.predecessors.size = adj.size
  of_followed : ∀ link ∈ followed,
    link.1 ∈ g.order ∧
    g.level link.1 ≤ d ∧
    link.2.1 ∈ g.order ∧
    g.level link.2.1 ≤ g.level link.1 + 1
  predecessorsOf_eq : ∀ w, g.predecessorsOf w = g.lastSteps followed w
  countOf_source : g.countOf s = ((1 : Nat) : α)
  countOf_eq : ∀ w, w ≠ s → g.countOf w = (g.predecessorsOf w).foldl
    (fun sum step => sum + g.countOf step.1) ((0 : Nat) : α)

namespace Explored

variable {adj : Adjacency} {s d : Nat} {g : Geodesics α}
  {followed : List (Nat × (Nat × Nat))}

theorem start
    {adj : Adjacency} {s : Nat}
    (hs : s < adj.size) :
    Explored adj s (Geodesics.start adj.size s : Geodesics α) [] 0 := by
  have hcount := countOf_start (α := α) hs
  have hpred := predecessorsOf_start (α := α) adj.size s
  exact
    { Discovered.start hs with
      size_counts := by simp [Geodesics.start]
      size_predecessors := by simp [Geodesics.start]
      of_followed := by simp
      predecessorsOf_eq := fun w => by simp [hpred, lastSteps]
      countOf_source := by simp [hcount]
      countOf_eq := fun w hw => by simp [hpred, hcount, hw] }

theorem raise
    (hexplored : Explored adj s g followed d)
    {d' : Nat}
    (hd : d ≤ d') :
    Explored adj s g followed d' :=
  { hexplored with
    level_le := fun v => (hexplored.level_le v).trans (by omega)
    of_followed := fun link hlink => by
      obtain ⟨hnear, hle, hfar⟩ := hexplored.of_followed link hlink
      exact ⟨hnear, hle.trans hd, hfar⟩ }

theorem discover
    (hexplored : Explored adj s g followed d)
    (hclosed : adj.Closed)
    {v : Nat} {step : Nat × Nat}
    (hv : v ∈ g.order)
    (hlevel : g.level v = d)
    (hstep : step ∈ adj.neighbors v) :
    Explored adj s (g.discover (d + 1) step.1) followed d := by
  have hextends := extends_discover g (d + 1) step.1
  have hold : ∀ x ∈ g.order, (g.discover (d + 1) step.1).level x = g.level x :=
    fun x hx => hextends.level_eq ((hexplored.mem_order_iff x).mp hx)
  have hpred : ∀ w,
      (g.discover (d + 1) step.1).predecessorsOf w = g.predecessorsOf w := by
    simp [predecessorsOf]
  have hcount : ∀ w, (g.discover (d + 1) step.1).countOf w = g.countOf w := by
    simp [countOf]
  refine
    { hexplored.toDiscovered.discover hclosed hv hlevel hstep with
      size_counts := by simpa using hexplored.size_counts
      size_predecessors := by simpa using hexplored.size_predecessors
      of_followed := fun link hlink => ?_
      predecessorsOf_eq := fun w => ?_
      countOf_source := by rw [hcount]; exact hexplored.countOf_source
      countOf_eq := fun w hw => by
        simp only [hcount, hpred]
        exact hexplored.countOf_eq w hw }
  · obtain ⟨hnear, hle, hfar, hclimb⟩ := hexplored.of_followed link hlink
    rw [hold _ hnear, hold _ hfar]
    exact ⟨hextends.mem_order hnear, hle, hextends.mem_order hfar, hclimb⟩
  · rw [hpred, hexplored.predecessorsOf_eq]
    refine (lastSteps_congr (fun link hlink => ?_) w).symm
    obtain ⟨hnear, -, hfar, -⟩ := hexplored.of_followed link hlink
    exact ⟨hold _ hnear, hold _ hfar⟩

theorem of_followed_concat
    (hexplored : Explored adj s g followed d)
    {v : Nat} {step : Nat × Nat}
    (hv : v ∈ g.order)
    (hlevel : g.level v = d)
    (hstep : step.1 ∈ g.order) :
    ∀ link ∈ followed ++ [(v, step)],
      link.1 ∈ g.order ∧
      g.level link.1 ≤ d ∧
      link.2.1 ∈ g.order ∧
      g.level link.2.1 ≤ g.level link.1 + 1 := by
  intro link hlink
  rcases List.mem_append.mp hlink with hold | hnew
  · exact hexplored.of_followed link hold
  · rw [List.mem_singleton] at hnew
    subst link
    exact ⟨hv, hlevel.le, hstep, hlevel ▸ hexplored.level_le step.1⟩

/-- Following a link that climbs.  The counts of the predecessors stay, as they
lie below the level that is being entered. -/
theorem climb
    (hexplored : Explored adj s g followed d)
    {v : Nat} {step : Nat × Nat}
    (hv : v ∈ g.order)
    (hlevel : g.level v = d)
    (hstep : step.1 ∈ g.order)
    (hclimb : g.level step.1 = d + 1) :
    Explored adj s (g.record v step) (followed ++ [(v, step)]) d := by
  have hlt : step.1 < adj.size := hexplored.lt_size_of_mem_order hstep
  have hcount : ∀ x, (g.record v step).countOf x =
      if x = step.1 then g.countOf step.1 + g.countOf v else g.countOf x :=
    countOf_record (by rw [hexplored.size_counts]; exact hlt)
  have hpred : ∀ x, (g.record v step).predecessorsOf x =
      if x = step.1 then g.predecessorsOf step.1 ++ [(v, step.2)]
      else g.predecessorsOf x :=
    predecessorsOf_record (by rw [hexplored.size_predecessors]; exact hlt)
  have hsource : s ≠ step.1 := by
    intro heq
    have hzero := level_of_distanceTo hexplored.distanceTo_source
    rw [heq, hclimb] at hzero
    omega
  have hsettled :
      ∀ x, g.level x ≤ d → (g.record v step).countOf x = g.countOf x := by
    intro x hx
    rw [hcount, if_neg]
    rintro rfl
    omega
  have hfold : ∀ w, (g.predecessorsOf w).foldl
        (fun sum st => sum + (g.record v step).countOf st.1) ((0 : Nat) : α) =
      (g.predecessorsOf w).foldl (fun sum st => sum + g.countOf st.1)
        ((0 : Nat) : α) := by
    intro w
    apply List.foldl_ext
    intro sum st hst
    rw [hexplored.predecessorsOf_eq, mem_lastSteps] at hst
    rw [hsettled st.1 (hexplored.of_followed _ hst.1).2.1]
  refine
    { hexplored.toDiscovered with
      size_counts := by simpa [Geodesics.record] using hexplored.size_counts
      size_predecessors := by
        simpa [Geodesics.record] using hexplored.size_predecessors
      of_followed := hexplored.of_followed_concat hv hlevel hstep
      predecessorsOf_eq := fun w => ?_
      countOf_source := by
        rw [hcount, if_neg hsource]; exact hexplored.countOf_source
      countOf_eq := fun w hw => ?_ }
  · change _ = g.lastSteps (followed ++ [(v, step)]) w
    rw [hpred, lastSteps_concat, hlevel]
    by_cases hx : w = step.1
    · subst w
      simp [hexplored.predecessorsOf_eq, hclimb]
    · simp [hx, Ne.symm hx, hexplored.predecessorsOf_eq]
  · rw [hcount, hpred]
    by_cases hx : w = step.1
    · subst w
      rw [if_pos rfl, if_pos rfl, List.foldl_append,
        hfold, ← hexplored.countOf_eq _ hw, List.foldl_cons, List.foldl_nil,
        hsettled v hlevel.le]
    · rw [if_neg hx, if_neg hx, hfold]
      exact hexplored.countOf_eq w hw

/-- Following a link that does not climb. -/
theorem stay
    (hexplored : Explored adj s g followed d)
    {v : Nat} {step : Nat × Nat}
    (hv : v ∈ g.order)
    (hlevel : g.level v = d)
    (hstep : step.1 ∈ g.order)
    (hstay : g.level step.1 ≠ d + 1) :
    Explored adj s g (followed ++ [(v, step)]) d := by
  refine
    { hexplored with
      of_followed := hexplored.of_followed_concat hv hlevel hstep
      predecessorsOf_eq := fun w => ?_ }
  have hnot : ¬ (step.1 = w ∧ g.level w = d + 1) := by
    rintro ⟨rfl, hfar⟩
    exact hstay hfar
  rw [lastSteps_concat, hlevel, if_neg hnot, List.append_nil,
    hexplored.predecessorsOf_eq]

theorem follow
    (hexplored : Explored adj s g followed d)
    (hclosed : adj.Closed)
    {v : Nat} {step : Nat × Nat}
    (hv : v ∈ g.order)
    (hlevel : g.level v = d)
    (hstep : step ∈ adj.neighbors v) :
    Explored adj s (g.follow v (d + 1) step) (followed ++ [(v, step)]) d := by
  have hdiscover := hexplored.discover hclosed hv hlevel hstep
  have hextends := extends_discover g (d + 1) step.1
  have hnear := hextends.mem_order hv
  have hsame :=
    (hextends.level_eq ((hexplored.mem_order_iff v).mp hv)).trans hlevel
  have hfar : step.1 ∈ (g.discover (d + 1) step.1).order := by
    by_cases hsome : (g.distanceTo step.1).isSome
    · exact hextends.mem_order ((hexplored.mem_order_iff step.1).mpr hsome)
    · rw [order_discover_of_none (by simpa using hsome)]
      exact Array.mem_push_self
  rw [follow_eq]
  split
  case isTrue hclimb =>
    exact hdiscover.climb hnear hsame hfar (level_of_distanceTo hclimb)
  case isFalse hstay =>
    refine hdiscover.stay hnear hsame hfar fun hlevelFar => hstay ?_
    rw [hdiscover.distanceTo_eq_level hfar, hlevelFar]

theorem foldl_follow
    (hclosed : adj.Closed)
    {v : Nat} (steps : List (Nat × Nat))
    (hsteps : ∀ step ∈ steps, step ∈ adj.neighbors v)
    (hexplored : Explored adj s g followed d)
    (hv : v ∈ g.order)
    (hlevel : g.level v = d) :
    Explored adj s (steps.foldl (Geodesics.follow v (d + 1)) g)
      (followed ++ steps.map fun step => (v, step)) d := by
  induction steps generalizing g followed with
  | nil => simpa using hexplored
  | cons step more ih =>
      have hfollow :=
        hexplored.follow hclosed hv hlevel (hsteps step List.mem_cons_self)
      have hkept := (extends_follow g v (d + 1) step).distanceTo_eq v
        ((hexplored.mem_order_iff v).mp hv)
      have hmore :=
        ih (fun st hst => hsteps st (List.mem_cons_of_mem _ hst)) hfollow
          (by rw [hfollow.mem_order_iff, hkept]; exact (hexplored.mem_order_iff
            v).mp hv) (by rw [level, hkept]; exact hlevel)
      simpa using hmore

theorem visit
    (hexplored : Explored adj s g followed d)
    (hclosed : adj.Closed)
    {v : Nat}
    (hv : v ∈ g.order)
    (hlevel : g.level v = d) :
    Explored adj s (g.visit adj v) (followed ++ adj.linksOf v) d := by
  have hnext : (g.distanceTo v).elim 0 (· + 1) = d + 1 := by
    rw [hexplored.distanceTo_eq_level hv, hlevel]
    rfl
  have hsteps : ∀ step ∈ (adj.neighbors v).toList, step ∈ adj.neighbors v :=
    fun step hstep => Array.mem_toList_iff.mp hstep
  unfold Geodesics.visit Adjacency.linksOf
  rw [hnext, ← Array.foldl_toList]
  exact foldl_follow hclosed _ hsteps hexplored hv hlevel

/-- A search that has visited the first `head` nodes goes on until it has
visited all that it discovers, for which there are visits enough. -/
theorem explore
    (hclosed : adj.Closed)
    (visits : Nat) {head : Nat}
    (hvisits : adj.size ≤ visits + head)
    (hhead : head ≤ g.order.size)
    (hnext : ∀ v, g.order[head]? = some v → d ≤ g.level v)
    (hexplored :
      Explored adj s g ((g.order.toList.take head).flatMap adj.linksOf) d) :
    ∃ d',
      Explored adj s (Geodesics.explore adj visits head g)
        ((Geodesics.explore adj visits head g).order.toList.flatMap adj.linksOf)
        d' ∧
      Explores adj head g (Geodesics.explore adj visits head g) := by
  induction visits generalizing g head d with
  | zero =>
      have hsize : g.order.size ≤ head := by
        have := hexplored.size_order_le
        omega
      have hall : g.order.toList.take head = g.order.toList :=
        List.take_of_length_le (by simpa using hsize)
      rw [hall] at hexplored
      exact ⟨d, hexplored, .finish (Array.getElem?_eq_none hsize)⟩
  | succ visits ih =>
      rw [Geodesics.explore]
      cases hget : g.order[head]? with
      | none =>
          have hall : g.order.toList.take head = g.order.toList := by
            apply List.take_of_length_le
            simpa using hget
          rw [hall] at hexplored
          exact ⟨d, hexplored, .finish hget⟩
      | some v =>
          obtain ⟨hlt, hgetElem⟩ := Array.getElem?_eq_some_iff.mp hget
          have hv : v ∈ g.order := by
            rw [← hgetElem]
            exact Array.getElem_mem hlt
          have hvisit := (hexplored.raise (hnext v hget)).visit hclosed hv rfl
          have hextends := extends_visit g adj v
          have htake := hextends.take_succ hget
          have hlist :
              (g.order.toList.take head).flatMap adj.linksOf ++ adj.linksOf v =
                ((g.visit adj v).order.toList.take (head + 1)).flatMap
                  adj.linksOf := by
            rw [htake, List.flatMap_append, List.flatMap_singleton]
          have hsize : head + 1 ≤ (g.visit adj v).order.size := by
            have hlength := congrArg List.length htake
            simp only [List.length_take, List.length_append,
              List.length_singleton, Array.length_toList] at hlength
            omega
          have hat : (g.visit adj v).order[head]? = some v := by
            have hlast := congrArg (·[head]?) htake
            simpa [hlt.le] using hlast
          have hkept : (g.visit adj v).level v = g.level v := by
            rw [level, hextends.distanceTo_eq v
              ((hexplored.mem_order_iff v).mp hv), level]
          rw [hlist] at hvisit
          refine (ih (by omega) hsize (fun w hw => ?_) hvisit).imp
            fun _ hboth => ⟨hboth.1, .visit hget hboth.2⟩
          rw [← hkept]
          exact hvisit.level_le_of_lt (Nat.lt_succ_self head) hat hw

end Explored

/-! ## What a search finds -/

section Found

variable {adj : Adjacency} {s : Nat}

theorem exists_explored_ofSource
    (hclosed : adj.Closed)
    (hs : s < adj.size) :
    ∃ d,
      Explored adj s (ofSource adj s : Geodesics α)
        ((ofSource adj s : Geodesics α).order.toList.flatMap adj.linksOf) d ∧
      Explores adj 0 (Geodesics.start adj.size s : Geodesics α)
        (ofSource adj s) := by
  refine Explored.explore hclosed adj.size (by omega) (Nat.zero_le _)
    (fun v _ => Nat.zero_le _) ?_
  simpa using Explored.start hs

/-- At the end of a search the links of all discovered nodes have been
followed. -/
theorem explored_ofSource
    (hclosed : adj.Closed)
    (hs : s < adj.size) :
    ∃ d, Explored adj s (ofSource adj s : Geodesics α)
      ((ofSource adj s : Geodesics α).order.toList.flatMap adj.linksOf) d :=
  (exists_explored_ofSource hclosed hs).imp fun _ hboth => hboth.1

/-- The visits of a search come to an end. -/
theorem explores_ofSource
    (hclosed : adj.Closed)
    (hs : s < adj.size) :
    Explores adj 0 (Geodesics.start adj.size s : Geodesics α)
      (ofSource adj s) :=
  (exists_explored_ofSource hclosed hs).elim fun _ hboth => hboth.2

/-- The source is discovered first. -/
theorem order_ofSource_zero
    (hclosed : adj.Closed)
    (hs : s < adj.size) :
    (ofSource adj s : Geodesics α).order[0]? = some s := by
  obtain ⟨more, hmore⟩ :=
    (explores_ofSource (α := α) hclosed hs).extends.order_append
  rw [← Array.getElem?_toList, hmore]
  rfl

theorem walk_of_distanceTo_ofSource
    (hclosed : adj.Closed)
    (hs : s < adj.size)
    {v k : Nat}
    (hdist : (ofSource adj s : Geodesics α).distanceTo v = some k) :
    adj.Walk s k v := by
  obtain ⟨d, hd⟩ := explored_ofSource (α := α) hclosed hs
  exact hd.walk_of_distanceTo v k hdist

/-- No walk is shorter than the distance found. -/
theorem distanceTo_ofSource_le_of_walk
    (hclosed : adj.Closed)
    (hs : s < adj.size)
    {v k : Nat}
    (hsteps : adj.Walk s k v) :
    ∃ k', (ofSource adj s : Geodesics α).distanceTo v = some k' ∧ k' ≤ k := by
  obtain ⟨d, hd⟩ := explored_ofSource (α := α) hclosed hs
  induction hsteps with
  | nil => exact ⟨0, hd.distanceTo_source, le_rfl⟩
  | @snoc k v step hwalk hstep ih =>
      obtain ⟨k', hk', hle⟩ := ih
      have hv : v ∈ (ofSource adj s : Geodesics α).order := by
        rw [hd.mem_order_iff, hk']
        rfl
      have hlink : (v, step) ∈
          (ofSource adj s : Geodesics α).order.toList.flatMap adj.linksOf :=
        List.mem_flatMap.mpr ⟨v, Array.mem_toList_iff.mpr hv,
          Adjacency.mem_linksOf.mpr ⟨rfl, hstep⟩⟩
      obtain ⟨-, -, hmem, hclimb⟩ := hd.of_followed _ hlink
      refine ⟨_, hd.distanceTo_eq_level hmem, hclimb.trans ?_⟩
      rw [level_of_distanceTo hk']
      omega

theorem source_ofSource
    (hclosed : adj.Closed)
    (hs : s < adj.size) :
    (ofSource adj s : Geodesics α).source = s := by
  obtain ⟨d, hd⟩ := explored_ofSource (α := α) hclosed hs
  exact hd.source_eq

/-- Only the source has distance zero. -/
theorem distanceTo_ofSource_eq_zero_iff
    (hclosed : adj.Closed)
    (hs : s < adj.size)
    {v : Nat} :
    (ofSource adj s : Geodesics α).distanceTo v = some 0 ↔ v = s := by
  constructor
  · intro hdist
    cases walk_of_distanceTo_ofSource hclosed hs hdist
    rfl
  · rintro rfl
    obtain ⟨d, hd⟩ := explored_ofSource (α := α) hclosed hs
    exact hd.distanceTo_source

theorem ne_source_of_distanceTo_ofSource
    (hclosed : adj.Closed)
    (hs : s < adj.size)
    {v k : Nat}
    (hv : (ofSource adj s : Geodesics α).distanceTo v = some (k + 1)) :
    v ≠ s := by
  intro heq
  rw [(distanceTo_ofSource_eq_zero_iff hclosed hs).mpr heq] at hv
  simp at hv

theorem lt_of_distanceTo_ofSource
    (hclosed : adj.Closed)
    (hs : s < adj.size)
    {v d : Nat}
    (hv : (ofSource adj s : Geodesics α).distanceTo v = some d) :
    v < adj.size := by
  obtain ⟨e, he⟩ := explored_ofSource (α := α) hclosed hs
  refine he.lt_size_of_mem_order ((he.mem_order_iff v).mpr ?_)
  rw [hv]
  rfl

/-- The predecessors of a node are its neighbours one level below, each with its
link. -/
theorem mem_predecessorsOf_ofSource
    (hclosed : adj.Closed)
    (hs : s < adj.size)
    {w : Nat} {step : Nat × Nat} :
    step ∈ (ofSource adj s : Geodesics α).predecessorsOf w ↔
      (w, step.2) ∈ adj.neighbors step.1 ∧
        ∃ k, (ofSource adj s : Geodesics α).distanceTo step.1 = some k ∧
          (ofSource adj s : Geodesics α).distanceTo w = some (k + 1) := by
  obtain ⟨d, hd⟩ := explored_ofSource (α := α) hclosed hs
  rw [hd.predecessorsOf_eq, mem_lastSteps]
  constructor
  · rintro ⟨hmem, hclimb⟩
    obtain ⟨hnear, -, hfar, -⟩ := hd.of_followed _ hmem
    obtain ⟨v, -, hlink⟩ := List.mem_flatMap.mp hmem
    rw [Adjacency.mem_linksOf] at hlink
    obtain ⟨rfl, hstep⟩ := hlink
    refine ⟨hstep, _, hd.distanceTo_eq_level hnear, ?_⟩
    rw [hd.distanceTo_eq_level hfar, hclimb]
  · rintro ⟨hstep, k, hnear, hfar⟩
    have hv : step.1 ∈ (ofSource adj s : Geodesics α).order := by
      rw [hd.mem_order_iff, hnear]
      rfl
    refine ⟨List.mem_flatMap.mpr ⟨step.1, Array.mem_toList_iff.mpr hv,
        Adjacency.mem_linksOf.mpr ⟨rfl, hstep⟩⟩, ?_⟩
    rw [level_of_distanceTo hnear, level_of_distanceTo hfar]

theorem countOf_ofSource_of_none
    (hclosed : adj.Closed)
    (hs : s < adj.size)
    {v : Nat}
    (hv : (ofSource adj s : Geodesics α).distanceTo v = none) :
    (ofSource adj s : Geodesics α).countOf v = ((0 : Nat) : α) := by
  obtain ⟨d, hd⟩ := explored_ofSource (α := α) hclosed hs
  have hne : v ≠ s := by
    rintro rfl
    simp [hd.distanceTo_source] at hv
  have hpredecessors :
      (ofSource adj s : Geodesics α).predecessorsOf v = [] := by
    refine List.eq_nil_iff_forall_not_mem.mpr fun step hstep => ?_
    obtain ⟨-, k, -, hk⟩ := (mem_predecessorsOf_ofSource hclosed hs).mp hstep
    simp [hv] at hk
  rw [hd.countOf_eq v hne, hpredecessors, List.foldl_nil]

theorem predecessorsOf_ofSource_nodup
    (hclosed : adj.Closed)
    (hs : s < adj.size)
    (hnodup : ∀ v, (adj.neighbors v).toList.Nodup)
    (w : Nat) :
    ((ofSource adj s : Geodesics α).predecessorsOf w).Nodup := by
  obtain ⟨d, hd⟩ := explored_ofSource (α := α) hclosed hs
  have hlinks : ((ofSource adj s : Geodesics α).order.toList.flatMap
        adj.linksOf).Nodup := by
    rw [List.nodup_flatMap]
    refine ⟨fun v _ => (hnodup v).map fun x y hxy => (Prod.mk.inj hxy).2, ?_⟩
    refine hd.order_nodup.imp fun hne link hleft hright => hne ?_
    exact (Adjacency.mem_linksOf.mp hleft).1.symm.trans
      (Adjacency.mem_linksOf.mp hright).1
  rw [hd.predecessorsOf_eq]
  apply hlinks.filterMap
  intro x y step hx hy
  obtain ⟨u, w', e⟩ := x
  obtain ⟨u', w'', e'⟩ := y
  simp only [Option.mem_def, Option.ite_none_right_eq_some,
    Option.some.injEq] at hx hy
  obtain ⟨⟨rfl, -⟩, rfl⟩ := hx
  obtain ⟨⟨rfl, -⟩, heq⟩ := hy
  simp only [Prod.mk.injEq] at heq
  rw [heq.1, heq.2]

end Found

section Counts

variable {α : Type} [AddCommMonoidWithOne α] {adj : Adjacency} {s : Nat}

theorem countOf_ofSource_self
    (hclosed : adj.Closed)
    (hs : s < adj.size) :
    (ofSource adj s : Geodesics α).countOf s = ((1 : Nat) : α) := by
  obtain ⟨d, hd⟩ := explored_ofSource (α := α) hclosed hs
  exact hd.countOf_source

/-- The count of a node is the sum of the counts of its predecessors. -/
theorem countOf_ofSource_eq_sum
    (hclosed : adj.Closed)
    (hs : s < adj.size)
    {v : Nat}
    (hne : v ≠ s) :
    (ofSource adj s : Geodesics α).countOf v =
      (((ofSource adj s : Geodesics α).predecessorsOf v).map Prod.fst
          |>.map (ofSource adj s : Geodesics α).countOf).sum := by
  obtain ⟨d, hd⟩ := explored_ofSource (α := α) hclosed hs
  rw [hd.countOf_eq v hne, Nat.cast_zero, List.sum_eq_foldl, List.foldl_map,
    List.foldl_map]

end Counts

end Geodesics

end LinkAnalysis
