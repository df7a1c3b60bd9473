import LinkAnalysis.Proofs.Route.Shortest
import LinkAnalysis.Proofs.Strict.Network

/-!
# Strict searches

A breadth-first search looks up what it knows of a node at every step, and the
way back from a target looks up predecessors.  All nodes that a search from a
node comes by are nodes of the adjacency, and it discovers no more of them than
it has visits.
-/

namespace LinkAnalysis

variable {α : Type}

/-- A search that keeps a value for each of `n` nodes, and has discovered only
such nodes. -/
structure Geodesics.Fits (g : Geodesics α) (n : Nat) : Prop where
  size_distances : g.distances.size = n
  size_counts : g.counts.size = n
  size_predecessors : g.predecessors.size = n
  lt_of_mem_order : ∀ v ∈ g.order, v < n

namespace Strict

/-! ## Searches -/

section Start

variable [NatCast α]

def start (n source : Nat) : Strict (Geodesics α) := do
  require (source < n)
  let distances ← store (Array.replicate n none) source (some 0)
  let counts ← store (Array.replicate n ((0 : Nat) : α)) source ((1 : Nat) : α)
  return {
    source := source
    distances := distances
    counts := counts
    predecessors := Array.replicate n []
    order := #[source] }

theorem start_of_lt {n source : Nat} (hlt : source < n) :
    (start n source : Strict (Geodesics α)) =
      .ok (Geodesics.start n source) := by
  have hdistances : source < (Array.replicate n (none : Option Nat)).size := by
    simpa using hlt
  have hcounts : source < (Array.replicate n ((0 : Nat) : α)).size := by
    simpa using hlt
  rw [start, require_of hlt, ok_bind, store_of_lt hdistances, ok_bind,
    store_of_lt hcounts]
  rfl

end Start

def discover (distance w : Nat) (g : Geodesics α) : Strict (Geodesics α) := do
  let known ← fetch g.distances w
  if known.isNone then
    let distances ← store g.distances w (some distance)
    return { g with distances := distances, order := g.order.push w }
  else return g

theorem discover_of_lt
    {g : Geodesics α} {w : Nat}
    (hw : w < g.distances.size)
    (distance : Nat) :
    discover distance w g = .ok (g.discover distance w) := by
  rw [discover, fetch_of_lt hw none, ok_bind, Geodesics.discover,
    Geodesics.distanceTo]
  by_cases hknown : (g.distances.getD w none).isNone
  · rw [if_pos hknown, if_pos hknown, store_of_lt hw]
    rfl
  · rw [if_neg hknown, if_neg hknown]
    rfl

section Search

variable [NatCast α] [Add α]

def follow (v distance : Nat) (g : Geodesics α) (step : Nat × Nat) :
    Strict (Geodesics α) := do
  let g ← discover distance step.1 g
  let reached ← fetch g.distances step.1
  if reached = some distance then
    let count ← fetch g.counts v
    let counts ← adjust g.counts step.1 (· + count)
    let predecessors ← adjust g.predecessors step.1 (· ++ [(v, step.2)])
    return { g with counts := counts, predecessors := predecessors }
  else return g

def visit (adj : Adjacency) (v : Nat) (g : Geodesics α) :
    Strict (Geodesics α) := do
  let known ← fetch g.distances v
  let row ← neighbors adj v
  row.toList.foldlM (follow v (known.elim 0 (· + 1))) g

/-- Gets stuck where nodes are left to visit after the last visit. -/
def explore (adj : Adjacency) : Nat → Nat → Geodesics α → Strict (Geodesics α)
  | 0, head, g => do
    require (g.order.size ≤ head)
    return g
  | visits + 1, head, g =>
    match g.order[head]? with
    | none => return g
    | some v => do
      let g ← visit adj v g
      explore adj visits (head + 1) g

def ofSource (adj : Adjacency) (source : Nat) : Strict (Geodesics α) := do
  let g ← start adj.size source
  explore adj adj.size 0 g

end Search

end Strict

namespace Geodesics.Fits

variable {g : Geodesics α} {n : Nat}

theorem discover
    (hfits : g.Fits n)
    {w : Nat}
    (hw : w < n)
    (distance : Nat) :
    (g.discover distance w).Fits n where
  size_distances :=
    (size_distances_discover g distance w).trans hfits.size_distances
  size_counts := by rw [counts_discover, hfits.size_counts]
  size_predecessors := by rw [predecessors_discover, hfits.size_predecessors]
  lt_of_mem_order v hv := by
    unfold Geodesics.discover at hv
    split at hv
    · rcases Array.mem_push.mp hv with hold | rfl
      · exact hfits.lt_of_mem_order v hold
      · exact hw
    · exact hfits.lt_of_mem_order v hv

theorem lt_of_distanceTo
    (hfits : g.Fits n)
    {v k : Nat}
    (hv : g.distanceTo v = some k) :
    v < n := by
  by_contra hge
  rw [distanceTo, Array.getD_eq_getD_getElem?,
    Array.getElem?_eq_none (by rw [hfits.size_distances]; omega)] at hv
  simp at hv

theorem start
    [NatCast α] {source : Nat}
    (hsource : source < n) :
    (Geodesics.start n source : Geodesics α).Fits n where
  size_distances := by simp [Geodesics.start]
  size_counts := by simp [Geodesics.start]
  size_predecessors := by simp [Geodesics.start]
  lt_of_mem_order v hv := by
    have heq : v = source := by simpa [Geodesics.start] using hv
    exact heq ▸ hsource

variable [NatCast α] [Add α]

theorem follow
    (hfits : g.Fits n)
    {step : Nat × Nat}
    (hstep : step.1 < n)
    (v distance : Nat) :
    (g.follow v distance step).Fits n := by
  have hdiscover := hfits.discover hstep distance
  rw [follow_eq]
  split
  · exact
      { size_distances := hdiscover.size_distances
        size_counts := by rw [record, Array.size_modify, hdiscover.size_counts]
        size_predecessors := by
          rw [record, Array.size_modify, hdiscover.size_predecessors]
        lt_of_mem_order := hdiscover.lt_of_mem_order }
  · exact hdiscover

theorem ofSource
    {adj : Adjacency}
    (hclosed : adj.Closed)
    {source : Nat}
    (hsource : source < adj.size) :
    (Geodesics.ofSource adj source : Geodesics α).Fits adj.size := by
  rcases explored_ofSource (α := α) hclosed hsource with ⟨d, hexplored⟩
  exact
    { size_distances := hexplored.size_distances
      size_counts := hexplored.size_counts
      size_predecessors := hexplored.size_predecessors
      lt_of_mem_order := fun _ => hexplored.lt_size_of_mem_order }

end Geodesics.Fits

namespace Strict

section Search

variable [NatCast α] [Add α] {adj : Adjacency} {g : Geodesics α}

theorem follow_eq
    {n : Nat}
    (hfits : g.Fits n)
    {v : Nat}
    (hv : v < n)
    {step : Nat × Nat}
    (hstep : step.1 < n)
    (distance : Nat) :
    follow v distance g step = .ok (g.follow v distance step) := by
  have hdiscover := hfits.discover hstep distance
  have hdistances : step.1 < (g.discover distance step.1).distances.size := by
    rwa [hdiscover.size_distances]
  have hcounts : step.1 < (g.discover distance step.1).counts.size := by
    rwa [hdiscover.size_counts]
  have hpredecessors :
      step.1 < (g.discover distance step.1).predecessors.size := by
    rwa [hdiscover.size_predecessors]
  rw [follow, discover_of_lt (by rwa [hfits.size_distances]),
    ok_bind, fetch_of_lt hdistances none, ok_bind, Geodesics.follow_eq,
    Geodesics.distanceTo]
  by_cases hreached : (g.discover distance step.1).distances.getD step.1 none =
    some distance
  · rw [if_pos hreached, if_pos hreached,
      fetch_of_lt (by rwa [hdiscover.size_counts]) ((0 : Nat) : α), ok_bind,
      adjust_of_lt hcounts, ok_bind, adjust_of_lt hpredecessors]
    rfl
  · rw [if_neg hreached, if_neg hreached]
    rfl

theorem visit_eq
    (hclosed : adj.Closed)
    (hfits : g.Fits adj.size)
    {v : Nat}
    (hv : v < adj.size) :
    visit adj v g = .ok (g.visit adj v) ∧ (g.visit adj v).Fits adj.size := by
  have hstep : ∀ g' : Geodesics α, g'.Fits adj.size →
      ∀ step ∈ (adj.neighbors v).toList,
        follow v ((g.distanceTo v).elim 0 (· + 1)) g' step =
          .ok (g'.follow v ((g.distanceTo v).elim 0 (· + 1)) step) ∧
        (g'.follow v ((g.distanceTo v).elim 0 (· + 1)) step).Fits adj.size := by
    intro g' hg' step hstep
    have hlt := hclosed v step (Array.mem_toList_iff.mp hstep)
    exact ⟨follow_eq hg' hv hlt _, hg'.follow hlt v _⟩
  rw [visit, fetch_of_lt (by rwa [hfits.size_distances]) none, ok_bind,
    neighbors_of_lt hv, ok_bind, Geodesics.visit, ← Array.foldl_toList]
  exact foldlM_eq_ok hstep g hfits

/-- A search that discovers no more nodes than it has visits comes to its
end. -/
theorem explore_eq
    (hclosed : adj.Closed)
    (visits : Nat) {head : Nat}
    (hstart : g.Fits adj.size)
    (hsize : (Geodesics.explore adj visits head g).order.size ≤ visits + head) :
    explore adj visits head g = .ok (Geodesics.explore adj visits head g) := by
  induction visits generalizing head g with
  | zero =>
      rw [Geodesics.explore, Nat.zero_add] at hsize
      rw [explore, require_of hsize]
      rfl
  | succ visits ih =>
      rw [Geodesics.explore] at hsize ⊢
      rw [explore]
      cases hget : g.order[head]? with
      | none => rfl
      | some v =>
          rw [hget] at hsize
          have hnext : (Geodesics.explore adj visits
                  (head + 1) (g.visit adj v)).order.size ≤
              visits + (head + 1) := by
            have hsize' : (Geodesics.explore adj visits
                    (head + 1) (g.visit adj v)).order.size ≤
                visits + 1 + head := hsize
            omega
          have hv := hstart.lt_of_mem_order v (Array.mem_of_getElem? hget)
          rcases visit_eq hclosed hstart hv with ⟨hvisit, hfits⟩
          simp only [hvisit, ok_bind]
          exact ih hfits hnext

theorem ofSource_eq
    (hclosed : adj.Closed)
    {source : Nat}
    (hsource : source < adj.size) :
    (ofSource adj source : Strict (Geodesics α)) =
      .ok (Geodesics.ofSource adj source) := by
  rcases Geodesics.explored_ofSource (α := α) hclosed hsource
    with ⟨d, hexplored⟩
  rw [ofSource, start_of_lt hsource, ok_bind]
  exact explore_eq hclosed adj.size (.start hsource) hexplored.size_order_le

end Search

/-! ## The way back -/

/-- Gets stuck at a node that is farther from the source than expected. -/
def trace (g : Geodesics α) (limit : Nat) :
    Nat → Nat → List Nat → RouteHaul → Strict RouteHaul
  | away, head, behind, haul =>
    if haul.truncated then return haul
    else if head = g.source then return haul.add limit (head :: behind)
    else match away with
      | 0 => .error .stuck
      | nearer + 1 => do
        let steps ← fetch g.predecessors head
        ((steps.map Prod.fst).mergeSort fun a b => decide (a ≤ b)).foldlM
          (fun haul u => trace g limit nearer u (head :: behind) haul) haul

def routesTo (g : Geodesics α) (target limit : Nat) :
    Strict (List (List Nat) × Bool) := do
  let known ← fetch g.distances target
  match known with
  | none => return ([], false)
  | some distance =>
    if limit = 0 then return ([], true)
    else
      let haul ← trace g limit distance target [] ⟨0, [], false⟩
      return (haul.routes.reverse.mergeSort routeLe, haul.truncated)

section Back

variable [NatCast α] [Add α] {adj : Adjacency} {s : Nat}

theorem trace_eq
    (hclosed : adj.Closed)
    (hs : s < adj.size)
    (limit : Nat) {away head : Nat}
    (hhead :
      (Geodesics.ofSource adj s : Geodesics α).distanceTo head = some away)
    (behind : List Nat)
    (haul : RouteHaul) :
    trace (Geodesics.ofSource adj s : Geodesics α) limit away head behind haul =
      .ok ((Geodesics.ofSource adj s : Geodesics α).trace limit away head
        behind haul) := by
  have hfits := Geodesics.Fits.ofSource (α := α) hclosed hs
  induction away generalizing head behind haul with
  | zero =>
      have hsource :
          head = (Geodesics.ofSource adj s : Geodesics α).source := by
        rw [Geodesics.source_ofSource hclosed hs]
        exact (Geodesics.distanceTo_ofSource_eq_zero_iff hclosed hs).mp hhead
      rw [trace, Geodesics.trace, if_pos hsource, if_pos hsource]
      split <;> rfl
  | succ nearer ih =>
      have hlt : head <
          (Geodesics.ofSource adj s : Geodesics α).predecessors.size := by
        rw [hfits.size_predecessors]
        exact hfits.lt_of_distanceTo hhead
      have hfold :=
        (foldlM_eq_ok (P := fun _ => True) (fun haul _ u hu =>
            ⟨ih ((Geodesics.mem_sortedPredecessors_ofSource hclosed hs hhead).mp
                hu).2 (head :: behind) haul, trivial⟩) haul trivial).1
      rw [trace, Geodesics.trace]
      split
      · rfl
      · split
        · rfl
        · rw [fetch_of_lt hlt [], ok_bind]
          exact hfold

theorem routesTo_eq
    (hclosed : adj.Closed)
    (hs : s < adj.size)
    {target : Nat}
    (htarget : target < adj.size)
    (limit : Nat) :
    routesTo (Geodesics.ofSource adj s : Geodesics α) target limit =
      .ok ((Geodesics.ofSource adj s : Geodesics α).routesTo target limit) := by
  have hfits := Geodesics.Fits.ofSource (α := α) hclosed hs
  have hknown : routesTo (Geodesics.ofSource adj s : Geodesics α) target limit =
      (match (Geodesics.ofSource adj s : Geodesics α).distanceTo target with
      | none => return ([], false)
      | some distance =>
        if limit = 0 then return ([], true)
        else do
          let haul ← trace (Geodesics.ofSource adj s : Geodesics α) limit
              distance target [] ⟨0, [], false⟩
          return (haul.routes.reverse.mergeSort routeLe, haul.truncated)) := by
    rw [routesTo, fetch_of_lt (by rwa [hfits.size_distances]) none]
    rfl
  rw [hknown, Geodesics.routesTo]
  cases hdistance : (Geodesics.ofSource adj s : Geodesics α).distanceTo target
    with
  | none => rfl
  | some distance =>
      simp only [trace_eq hclosed hs limit hdistance]
      by_cases hlimit : limit = 0
      · rw [if_pos hlimit, if_pos hlimit]
        rfl
      · rw [if_neg hlimit, if_neg hlimit]
        rfl

end Back

end Strict

end LinkAnalysis
