import LinkAnalysis.Proofs.Network.Search

/-!
# Searching a part of a graph

A small graph may stand inside a larger one: its nodes and links have other
numbers there, in the same order, and all other links join other nodes.  A
search from one of these nodes does in the larger graph what it does in the
small one, number by number.  It has more visits at its disposal there, but
needs no more.  A search from any other node names none of these nodes and
links.

Nothing is assumed of the arithmetic, so the numbers of walks agree as they were
computed.
-/

namespace LinkAnalysis

/-! ## Copies of arrays -/

section Arrays

variable {β γ : Type}
  {inside : Nat → Prop} {place : Nat → Nat} {xs ys : Array β} {i : Nat}

/-- At the places of the indices that are inside, the second array holds what
the first one holds at the indices. -/
def Copies (inside : Nat → Prop) (place : Nat → Nat) (xs ys : Array β) : Prop :=
  ∀ i, inside i → ys[place i]? = xs[i]?

/-- Not the place of an index that is inside. -/
def Misses (inside : Nat → Prop) (place : Nat → Nat) (j : Nat) : Prop :=
  ∀ i, inside i → place i ≠ j

theorem setIfInBounds_eq_modify
    (xs : Array β) (i : Nat) (x : β) :
    xs.setIfInBounds i x = xs.modify i fun _ => x := by
  apply Array.ext_getElem?
  intro j
  rw [Array.getElem?_setIfInBounds, Array.getElem?_modify]
  by_cases hij : i = j
  · subst j
    by_cases hi : i < xs.size <;> simp [hi]
  · simp [hij]

theorem map_modify_of_comm
    {f : β → β}
    (hall : γ → γ)
    {φ : β → γ}
    (hcomm : ∀ x, φ (f x) = hall (φ x))
    (xs : Array β) (i : Nat) :
    (xs.modify i f).map φ = (xs.map φ).modify i hall := by
  apply Array.ext_getElem?
  intro j
  rw [Array.getElem?_map, Array.getElem?_modify, Array.getElem?_modify,
    Array.getElem?_map]
  by_cases hij : i = j
  · cases hx : xs[j]? <;> simp [hij, hcomm]
  · simp [hij]

namespace Copies

theorem getD
    (hcopies : Copies inside place xs ys)
    (hi : inside i)
    (default : β) :
    ys.getD (place i) default = xs.getD i default := by
  rw [Array.getD_eq_getD_getElem?, Array.getD_eq_getD_getElem?, hcopies i hi]

theorem modify
    (hcopies : Copies inside place xs ys)
    (hinjective : ∀ j, inside j → place i = place j → i = j)
    (f : β → β) :
    Copies inside place (xs.modify i f) (ys.modify (place i) f) := by
  intro j hj
  rw [Array.getElem?_modify, Array.getElem?_modify, hcopies j hj]
  by_cases hij : i = j
  · rw [if_pos hij, if_pos (congrArg place hij)]
  · rw [if_neg hij, if_neg fun heq => hij (hinjective j hj heq)]

theorem setIfInBounds
    (hcopies : Copies inside place xs ys)
    (hinjective : ∀ j, inside j → place i = place j → i = j)
    (x : β) :
    Copies inside place (xs.setIfInBounds i x)
      (ys.setIfInBounds (place i) x) := by
  rw [setIfInBounds_eq_modify, setIfInBounds_eq_modify]
  exact hcopies.modify hinjective _

theorem modify_of_misses
    (hcopies : Copies inside place xs ys)
    {j : Nat}
    (hj : Misses inside place j)
    (f : β → β) :
    Copies inside place xs (ys.modify j f) := by
  intro i hi
  rw [Array.getElem?_modify, if_neg (hj i hi).symm, hcopies i hi]

theorem setIfInBounds_of_misses
    (hcopies : Copies inside place xs ys)
    {j : Nat}
    (hj : Misses inside place j)
    (x : β) :
    Copies inside place xs (ys.setIfInBounds j x) := by
  rw [setIfInBounds_eq_modify]
  exact hcopies.modify_of_misses hj _

theorem replicate
    {n n' : Nat}
    (hinside : ∀ i, inside i → i < n)
    (hplace : ∀ i, inside i → place i < n')
    (x : β) :
    Copies inside place (Array.replicate n x) (Array.replicate n' x) := by
  intro i hi
  rw [Array.getElem?_replicate, Array.getElem?_replicate, if_pos (hplace i hi),
    if_pos (hinside i hi)]

end Copies

end Arrays

/-! ## Graphs inside larger graphs -/

namespace Adjacency

/-- The link at the position leads somewhere. -/
def HasLink (adj : Adjacency) (e : Nat) : Prop :=
  ∃ v, ∃ step ∈ adj.neighbors v, step.2 = e

/-- The nodes of the small graph have these places in the large one, and its
links these positions.  All other links join other nodes. -/
structure Embeds (small large : Adjacency) (place move : Nat → Nat) : Prop where
  closed : small.Closed
  place_lt : ∀ v < small.size, place v < large.size
  place_lt_place : ∀ v w, v < w → w < small.size → place v < place w
  move_injective : ∀ e f, small.HasLink e → small.HasLink f → move e = move f →
    e = f
  neighbors_place : ∀ v < small.size, (large.neighbors (place v)).toList =
    (small.neighbors v).toList.map (Prod.map place move)
  misses : ∀ v, Misses (· < small.size) place v → ∀ step ∈ large.neighbors v,
    Misses (· < small.size) place step.1 ∧ Misses small.HasLink move step.2

theorem Embeds.strictMonoOn_place
    {small large : Adjacency} {place move : Nat → Nat}
    (hembeds : small.Embeds large place move) :
    StrictMonoOn place {v | v < small.size} :=
  fun v _ w hw hlt => hembeds.place_lt_place v w hlt hw

theorem Embeds.place_injective
    {small large : Adjacency} {place move : Nat → Nat}
    (hembeds : small.Embeds large place move)
    {v : Nat}
    (hv : v < small.size) :
    ∀ w, w < small.size → place v = place w → v = w :=
  fun _ hw heq => hembeds.strictMonoOn_place.injOn hv hw heq

theorem Embeds.size_le
    {small large : Adjacency} {place move : Nat → Nat}
    (hembeds : small.Embeds large place move) :
    small.size ≤ large.size := by
  have hmaps :
      Set.MapsTo place (Finset.range small.size) (Finset.range large.size) := by
    intro v hv
    rw [Finset.mem_coe, Finset.mem_range] at hv ⊢
    exact hembeds.place_lt v hv
  have hinjective : Set.InjOn place (Finset.range small.size) := by
    intro v hv w hw heq
    rw [Finset.mem_coe, Finset.mem_range] at hv hw
    exact hembeds.place_injective hv w hw heq
  have hcard := Finset.card_le_card_of_injOn place hmaps hinjective
  rwa [Finset.card_range, Finset.card_range] at hcard

end Adjacency

namespace Geodesics

variable {α : Type} {small large : Adjacency} {place move : Nat → Nat}

/-! ## Visits -/

section Visits

variable [NatCast α] [Add α]

/-- A search stops by itself, so visits that it does not need make no
difference. -/
theorem Explores.explore_eq
    {adj : Adjacency} {head : Nat} {g g' : Geodesics α}
    (hexplores : Explores adj head g g')
    {visits : Nat}
    (hvisits : g'.order.size ≤ head + visits) :
    Geodesics.explore adj visits head g = g' := by
  induction hexplores generalizing visits with
  | finish hget =>
      cases visits with
      | zero => rfl
      | succ visits => rw [Geodesics.explore, hget]
  | @visit head v g g' hget hrest ih =>
      rcases hrest.extends.order_append with ⟨later, hlater⟩
      rcases (extends_visit g adj v).order_append with ⟨more, hmore⟩
      have hlt : head < g'.order.size := by
        have hhead := (Array.getElem?_eq_some_iff.mp hget).1
        have hlength := congrArg List.length hlater
        rw [hmore] at hlength
        simp only [List.length_append, Array.length_toList] at hlength
        omega
      cases visits with
      | zero => exact absurd hvisits (Nat.not_le.mpr hlt)
      | succ visits =>
          rw [Geodesics.explore, hget]
          exact ih (by omega)

theorem explore_eq_ofSource
    {adj : Adjacency}
    (hclosed : adj.Closed)
    {s visits : Nat}
    (hs : s < adj.size)
    (hvisits : adj.size ≤ visits) :
    Geodesics.explore adj visits 0 (Geodesics.start adj.size s : Geodesics α) =
      ofSource adj s := by
  rcases exists_explored_ofSource (α := α) hclosed hs
    with ⟨d, hexplored, hexplores⟩
  have hsize := hexplored.size_order_le
  exact hexplores.explore_eq (by omega)

end Visits

/-! ## Searches from inside -/

/-- What the second search knows of the places is what the first one knows of
the nodes. -/
structure Mirrors (small : Adjacency) (place move : Nat → Nat)
    (g g' : Geodesics α) : Prop where
  source_eq : g'.source = place g.source
  distances : Copies (· < small.size) place g.distances g'.distances
  counts : Copies (· < small.size) place g.counts g'.counts
  predecessors : Copies (· < small.size) place
    (g.predecessors.map (List.map (Prod.map place move))) g'.predecessors
  order_eq : g'.order.toList = g.order.toList.map place
  lt_of_mem_order : ∀ v ∈ g.order, v < small.size

namespace Mirrors

variable {g g' : Geodesics α} {v w : Nat}

theorem distanceTo_eq
    (hmirrors : Mirrors small place move g g')
    (hv : v < small.size) :
    g'.distanceTo (place v) = g.distanceTo v :=
  hmirrors.distances.getD hv none

theorem predecessorsOf_eq
    (hmirrors : Mirrors small place move g g')
    (hv : v < small.size) :
    g'.predecessorsOf (place v) =
      (g.predecessorsOf v).map (Prod.map place move) := by
  rw [predecessorsOf, hmirrors.predecessors.getD hv,
    predecessorsOf, Array.getD_eq_getD_getElem?, Array.getD_eq_getD_getElem?,
    Array.getElem?_map]
  cases g.predecessors[v]? <;> rfl

theorem getElem?_order (hmirrors : Mirrors small place move g g') (head : Nat) :
    g'.order[head]? = g.order[head]?.map place := by
  rw [← Array.getElem?_toList, hmirrors.order_eq, List.getElem?_map,
    Array.getElem?_toList]

theorem discover
    (hmirrors : Mirrors small place move g g')
    (hemb : small.Embeds large place move)
    (hw : w < small.size)
    (distance : Nat) :
    Mirrors small place move (g.discover distance w)
      (g'.discover distance (place w)) := by
  have hdistance := hmirrors.distanceTo_eq hw
  cases hreached : g.distanceTo w with
  | some away =>
      rw [hreached] at hdistance
      rw [discover_of_isSome (by simp [hreached]),
        discover_of_isSome (by simp [hdistance])]
      exact hmirrors
  | none =>
      rw [hreached] at hdistance
      rw [discover_of_none hreached, discover_of_none hdistance]
      refine
        { source_eq := hmirrors.source_eq
          distances := ?_
          counts := hmirrors.counts
          predecessors := hmirrors.predecessors
          order_eq := by simp [hmirrors.order_eq]
          lt_of_mem_order := fun v hv => ?_ }
      · exact hmirrors.distances.setIfInBounds (hemb.place_injective hw) _
      · rcases Array.mem_push.mp hv with hold | rfl
        · exact hmirrors.lt_of_mem_order v hold
        · exact hw

variable [NatCast α]

theorem countOf_eq
    (hmirrors : Mirrors small place move g g')
    (hv : v < small.size) :
    g'.countOf (place v) = g.countOf v :=
  hmirrors.counts.getD hv _

theorem start
    {s : Nat}
    (hemb : small.Embeds large place move)
    (hs : s < small.size) :
    Mirrors small place move (Geodesics.start small.size s : Geodesics α)
      (Geodesics.start large.size (place s)) := by
  have hreplicate : ∀ {β : Type} (x : β), Copies (· < small.size) place
      (Array.replicate small.size x) (Array.replicate large.size x) :=
    fun x => Copies.replicate (fun _ hv => hv) hemb.place_lt x
  refine
    { source_eq := rfl
      distances := ?_
      counts := ?_
      predecessors := ?_
      order_eq := rfl
      lt_of_mem_order := fun v hv => ?_ }
  · exact (hreplicate none).setIfInBounds (hemb.place_injective hs) _
  · exact (hreplicate _).setIfInBounds (hemb.place_injective hs) _
  · rw [Geodesics.start, Geodesics.start, Array.map_replicate]
    exact hreplicate []
  · rw [Array.mem_singleton.mp hv]
    exact hs

variable [Add α]

theorem record
    (hmirrors : Mirrors small place move g g')
    (hemb : small.Embeds large place move)
    (hv : v < small.size)
    {step : Nat × Nat}
    (hstep : step.1 < small.size) :
    Mirrors small place move (g.record v step)
      (g'.record (place v) (Prod.map place move step)) := by
  refine
    { source_eq := hmirrors.source_eq
      distances := hmirrors.distances
      counts := ?_
      predecessors := ?_
      order_eq := hmirrors.order_eq
      lt_of_mem_order := hmirrors.lt_of_mem_order }
  · rw [Geodesics.record, Geodesics.record, hmirrors.countOf_eq hv]
    exact hmirrors.counts.modify (hemb.place_injective hstep) _
  · rw [Geodesics.record, Geodesics.record, map_modify_of_comm
      (· ++ [(place v, move step.2)]) (by simp)]
    exact hmirrors.predecessors.modify (hemb.place_injective hstep) _

theorem follow
    (hmirrors : Mirrors small place move g g')
    (hemb : small.Embeds large place move)
    (hv : v < small.size)
    {step : Nat × Nat}
    (hstep : step.1 < small.size)
    (distance : Nat) :
    Mirrors small place move (g.follow v distance step)
      (g'.follow (place v) distance (Prod.map place move step)) := by
  have hdiscover := hmirrors.discover hemb hstep distance
  rw [follow_eq, follow_eq, Prod.map_fst, hdiscover.distanceTo_eq hstep]
  split
  · exact hdiscover.record hemb hv hstep
  · exact hdiscover

theorem visit
    (hmirrors : Mirrors small place move g g')
    (hemb : small.Embeds large place move)
    (hv : v < small.size) :
    Mirrors small place move (g.visit small v) (g'.visit large (place v)) := by
  unfold Geodesics.visit
  rw [← Array.foldl_toList, ← Array.foldl_toList, hemb.neighbors_place v hv,
    hmirrors.distanceTo_eq hv, List.foldl_map]
  refine List.foldl_rel hmirrors fun step hstep g g' hstill => ?_
  exact hstill.follow hemb hv
    (hemb.closed v step (Array.mem_toList_iff.mp hstep)) _

theorem explore
    (hemb : small.Embeds large place move)
    (visits head : Nat)
    (hmirrors : Mirrors small place move g g') :
    Mirrors small place move (Geodesics.explore small visits head g)
      (Geodesics.explore large visits head g') := by
  induction visits generalizing head g g' with
  | zero => exact hmirrors
  | succ visits ih =>
      rw [Geodesics.explore, Geodesics.explore, hmirrors.getElem?_order]
      cases hget : g.order[head]? with
      | none => exact hmirrors
      | some v =>
          exact ih _ (hmirrors.visit hemb
            (hmirrors.lt_of_mem_order v (Array.mem_of_getElem? hget)))

/-- A search from inside does in the large graph what it does in the small
one. -/
theorem ofSource
    {s : Nat}
    (hemb : small.Embeds large place move)
    (hs : s < small.size) :
    Mirrors small place move (Geodesics.ofSource small s : Geodesics α)
      (Geodesics.ofSource large (place s)) := by
  have hexplore := explore hemb large.size 0 (start (α := α) hemb hs)
  rwa [explore_eq_ofSource hemb.closed hs hemb.size_le] at hexplore

end Mirrors

/-! ## Searches from outside -/

/-- The search has named none of these nodes and links. -/
structure Avoids (small : Adjacency) (place move : Nat → Nat)
    (g : Geodesics α) : Prop where
  order : ∀ v ∈ g.order, Misses (· < small.size) place v
  predecessors : ∀ w, ∀ step ∈ g.predecessorsOf w,
    Misses (· < small.size) place step.1 ∧ Misses small.HasLink move step.2

namespace Avoids

variable {g : Geodesics α} {v w : Nat}

theorem discover
    (havoids : Avoids small place move g)
    (hw : Misses (· < small.size) place w)
    (distance : Nat) :
    Avoids small place move (g.discover distance w) := by
  unfold Geodesics.discover
  split
  · refine ⟨fun v hv => ?_, havoids.predecessors⟩
    rcases Array.mem_push.mp hv with hold | rfl
    · exact havoids.order v hold
    · exact hw
  · exact havoids

variable [NatCast α]

theorem start
    (large : Adjacency) {s : Nat}
    (hs : Misses (· < small.size) place s) :
    Avoids small place move (Geodesics.start large.size s : Geodesics α) := by
  refine ⟨fun v hv => ?_, fun w step hstep => ?_⟩
  · rw [Array.mem_singleton.mp hv]
    exact hs
  · rw [predecessorsOf_start] at hstep
    exact absurd hstep List.not_mem_nil

variable [Add α]

theorem follow
    (havoids : Avoids small place move g)
    (hv : Misses (· < small.size) place v)
    {step : Nat × Nat}
    (hstep : Misses (· < small.size) place step.1)
    (hposition : Misses small.HasLink move step.2)
    (distance : Nat) :
    Avoids small place move (g.follow v distance step) := by
  have hdiscover := havoids.discover hstep distance
  rw [follow_eq]
  split
  · refine ⟨hdiscover.order, fun w step' hstep' => ?_⟩
    rcases mem_predecessorsOf_record hstep' with hold | rfl
    · exact hdiscover.predecessors w step' hold
    · exact ⟨hv, hposition⟩
  · exact hdiscover

theorem visit
    (havoids : Avoids small place move g)
    (hemb : small.Embeds large place move)
    (hv : Misses (· < small.size) place v) :
    Avoids small place move (g.visit large v) := by
  unfold Geodesics.visit
  rw [← Array.foldl_toList]
  refine List.foldlRecOn _ _ havoids fun g hg step hstep => ?_
  rcases hemb.misses v hv step (Array.mem_toList_iff.mp hstep)
    with ⟨hnode, hposition⟩
  exact hg.follow hv hnode hposition _

theorem explore
    (hemb : small.Embeds large place move)
    (visits head : Nat)
    (havoids : Avoids small place move g) :
    Avoids small place move (Geodesics.explore large visits head g) := by
  induction visits generalizing head g with
  | zero => exact havoids
  | succ visits ih =>
      rw [Geodesics.explore]
      cases hget : g.order[head]? with
      | none => exact havoids
      | some v =>
          exact ih _
            (havoids.visit hemb (havoids.order v (Array.mem_of_getElem? hget)))

/-- A search from outside stays outside. -/
theorem ofSource
    {s : Nat}
    (hemb : small.Embeds large place move)
    (hs : Misses (· < small.size) place s) :
    Avoids small place move (Geodesics.ofSource large s : Geodesics α) :=
  explore hemb large.size 0 (start large hs)

end Avoids

end Geodesics

end LinkAnalysis
