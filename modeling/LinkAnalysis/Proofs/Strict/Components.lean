import LinkAnalysis.Network.Statistics
import LinkAnalysis.Proofs.Strict.Network

/-!
# Strict components

The partition of the nodes is asked for nodes only, its representatives are
nodes again, and the slot that is noted for a representative is that of a group.
-/

namespace LinkAnalysis

/-- A gathering over `n` nodes in which every slot that is noted is that of a
group. -/
structure Gathering.Fits (c : Gathering Labels) (n : Nat) : Prop where
  fits_sets : c.sets.Fits n
  size_slots : c.slots.size = n
  slot_lt : ∀ r slot, c.slots.getD r none = some slot → slot < c.groups.size

theorem Gathering.fits_start
    {sets : Labels} {n : Nat}
    (hsets : sets.Fits n) :
    (Gathering.start sets n).Fits n where
  fits_sets := hsets
  size_slots := Array.size_replicate
  slot_lt r slot hslot := by
    rw [Gathering.start, getD_replicate_self] at hslot
    exact absurd hslot (by simp)

namespace Strict

def union (p : Labels) (v w : Nat) : Strict Labels := do
  require (v < p.labels.size ∧ w < p.labels.size)
  return p.union v w

def joinNeighbors (adj : Adjacency) (sets : Labels)
    (v : Nat) : Strict Labels := do
  let row ← neighbors adj v
  row.toList.foldlM (fun sets step =>
    if v < step.1 then union sets v step.1 else return sets) sets

def joinAll (adj : Adjacency) : Strict Labels :=
  adj.nodes.foldlM (joinNeighbors adj) (Labels.singletons adj.size)

def gather (c : Gathering Labels) (v : Nat) : Strict (Gathering Labels) := do
  let root ← fetch c.sets.labels v
  let slot ← fetch c.slots root
  match slot with
  | some slot =>
    let groups ← adjust c.groups slot (·.push v)
    return { c with groups := groups }
  | none =>
    let slots ← store c.slots root (some c.groups.size)
    return { c with slots := slots, groups := c.groups.push #[v] }

def components (adj : Adjacency) : Strict (List (List Nat)) := do
  let sets ← joinAll adj
  let c ← adj.nodes.foldlM gather (Gathering.start sets adj.size)
  return c.groups.toList.map Array.toList

def componentCount (g : PlainGraph) : Strict Nat := do
  let sets ← g.edges.toList.foldlM (fun sets e => union sets e.1 e.2.1)
    (Labels.singletons g.nodeCount)
  let labels ← (List.range g.nodeCount).mapM (fetch sets.labels)
  return labels.eraseDups.length

def statistics {α : Type} [Score α] (net : Network) :
    Strict (Statistics α) := do
  let degrees ← (List.range net.size).mapM (degree net.adjacency)
  let componentCount ← componentCount net.graph
  return {
    nodeCount := net.size
    linkCount := net.linkCount
    density := LinkAnalysis.density net.size net.linkCount
    averageDegree := LinkAnalysis.averageDegree net.size net.linkCount
    componentCount := componentCount
    isolatedCount := degrees.countP (· == 0)
    maxDegree := degrees.foldl max 0 }

theorem union_of_lt
    {n : Nat} {p : Labels}
    (hp : p.Fits n)
    {v w : Nat}
    (hv : v < n)
    (hw : w < n) :
    union p v w = .ok (p.union v w) ∧ (p.union v w).Fits n := by
  have hends : v < p.labels.size ∧ w < p.labels.size := by
    rw [hp.size_eq]
    exact ⟨hv, hw⟩
  rw [union, require_of hends]
  exact ⟨rfl, hp.union hv⟩

theorem fetch_labels
    {n : Nat} {p : Labels}
    (hp : p.Fits n)
    {v : Nat}
    (hv : v < n) :
    fetch p.labels v = .ok (p.labelOf v) :=
  fetch_of_lt (by rwa [hp.size_eq]) v

section Gathering

variable {adj : Adjacency}

theorem joinNeighbors_eq
    (hclosed : adj.Closed)
    {sets : Labels}
    (hsets : sets.Fits adj.size)
    {v : Nat}
    (hv : v < adj.size) :
    joinNeighbors adj sets v =
        .ok (LinkAnalysis.joinNeighbors Labels.unionFind adj sets v) ∧
      (LinkAnalysis.joinNeighbors Labels.unionFind adj sets v).Fits
        adj.size := by
  have hstep :
      ∀ sets : Labels, sets.Fits adj.size → ∀ step ∈ (adj.neighbors v).toList,
        (if v < step.1 then union sets v step.1 else return sets) =
        .ok (if v < step.1 then sets.union v step.1 else sets) ∧
        (if v < step.1 then sets.union v step.1 else sets).Fits adj.size := by
    intro sets hsets step hstep
    have hunion :=
      union_of_lt hsets hv (hclosed v step (Array.mem_toList_iff.mp hstep))
    by_cases hlt : v < step.1
    · rw [if_pos hlt, if_pos hlt]
      exact hunion
    · rw [if_neg hlt, if_neg hlt]
      exact ⟨rfl, hsets⟩
  rw [joinNeighbors, neighbors_of_lt hv, ok_bind, LinkAnalysis.joinNeighbors,
    ← Array.foldl_toList]
  exact foldlM_eq_ok hstep sets hsets

theorem joinAll_eq (hclosed : adj.Closed) :
    joinAll adj = .ok (LinkAnalysis.joinAll Labels.unionFind adj) ∧
      (LinkAnalysis.joinAll Labels.unionFind adj).Fits adj.size :=
  foldlM_eq_ok (fun _ hsets _ hv => joinNeighbors_eq hclosed hsets
    (List.mem_range.mp hv)) _ (Labels.lawful.fits_singletons adj.size)

theorem gather_eq
    {c : Gathering Labels} {n : Nat}
    (hc : c.Fits n)
    {v : Nat}
    (hv : v < n) :
    gather c v = .ok (c.add Labels.unionFind v) ∧
      (c.add Labels.unionFind v).Fits n := by
  have hroot := hc.fits_sets.labelOf_lt v hv
  have hslots : c.sets.labelOf v < c.slots.size := by rwa [hc.size_slots]
  have hstrict : gather c v = (match c.slots.getD (c.sets.labelOf v) none with
      | some slot => do
        let groups ← adjust c.groups slot (·.push v)
        return { c with groups := groups }
      | none => do
        let slots ← store c.slots (c.sets.labelOf v) (some c.groups.size)
        return { c with slots := slots, groups := c.groups.push #[v] }) := by
    rw [gather, fetch_labels hc.fits_sets hv, ok_bind, fetch_of_lt hslots none]
    rfl
  have htotal : c.add Labels.unionFind v =
      (match c.slots.getD (c.sets.labelOf v) none with
      | some slot => { c with groups := c.groups.modify slot (·.push v) }
      | none =>
        { c with
          slots := c.slots.setIfInBounds (c.sets.labelOf v) (some c.groups.size)
          groups := c.groups.push #[v] }) := rfl
  rw [hstrict, htotal]
  cases hslot : c.slots.getD (c.sets.labelOf v) none with
  | some slot =>
      have hlt := hc.slot_lt _ slot hslot
      simp only [adjust_of_lt hlt, ok_bind]
      exact ⟨rfl, {
        fits_sets := hc.fits_sets
        size_slots := hc.size_slots
        slot_lt := fun r slot' hfound => by
          rw [Array.size_modify]
          exact hc.slot_lt r slot' hfound }⟩
  | none =>
      simp only [store_of_lt hslots, ok_bind]
      exact ⟨rfl, {
        fits_sets := hc.fits_sets
        size_slots := by rw [Array.size_setIfInBounds, hc.size_slots]
        slot_lt := fun r slot' hfound => by
          rw [getD_setIfInBounds] at hfound
          rw [Array.size_push]
          split at hfound
          · obtain rfl := Option.some_inj.mp hfound
            exact Nat.lt_succ_self _
          · exact (hc.slot_lt r slot' hfound).trans (Nat.lt_succ_self _) }⟩

theorem components_eq (hclosed : adj.Closed) :
    components adj = .ok (LinkAnalysis.components adj) := by
  have hsets := joinAll_eq hclosed
  have hstep : ∀ c : Gathering Labels, c.Fits adj.size → ∀ v ∈ adj.nodes,
      gather c v = .ok (c.add Labels.unionFind v) ∧
      (c.add Labels.unionFind v).Fits adj.size :=
    fun _ hc _ hv => gather_eq hc (List.mem_range.mp hv)
  have hfold := foldlM_eq_ok hstep
    (Gathering.start (LinkAnalysis.joinAll Labels.unionFind adj) adj.size)
    (Gathering.fits_start hsets.2)
  rw [components, hsets.1, ok_bind, hfold.1]
  rfl

end Gathering

section Statistics

variable (s : Snapshot)

theorem componentCount_eq :
    componentCount (Network.ofSnapshot s).graph =
      .ok (Network.ofSnapshot s).graph.componentCount := by
  have hstep : ∀ sets : Labels, sets.Fits
        (Network.ofSnapshot s).graph.nodeCount →
      ∀ e ∈ (Network.ofSnapshot s).graph.edges.toList,
        union sets e.1 e.2.1 = .ok (sets.union e.1 e.2.1) ∧
        (sets.union e.1 e.2.1).Fits (Network.ofSnapshot s).graph.nodeCount := by
    intro sets hsets e he
    have hpair : (e.1, e.2.1) ∈ (Network.ofSnapshot s).graph.pairs :=
      List.mem_map.mpr ⟨e, he, rfl⟩
    have hlt := Network.lt_of_mem_pairs_ofSnapshot s hpair
    exact union_of_lt hsets hlt.1 hlt.2
  have hfold := foldlM_eq_ok hstep
    (Labels.singletons (Network.ofSnapshot s).graph.nodeCount)
    (Labels.lawful.fits_singletons _)
  have hlabels := mapM_eq_ok fun v hv =>
    fetch_labels hfold.2 (List.mem_range.mp hv)
  rw [componentCount, hfold.1, ok_bind, hlabels, PlainGraph.componentCount,
    PlainGraph.componentCountBy, ← Array.foldl_toList]
  rfl

theorem statistics_eq {α : Type} [Score α] :
    (statistics (Network.ofSnapshot s) : Strict (Statistics α)) =
      .ok (Network.ofSnapshot s).statistics := by
  have hsize := Network.size_adjacency_ofSnapshot s
  have hdegrees : (List.range (Network.ofSnapshot s).size).mapM
        (degree (Network.ofSnapshot s).adjacency) =
      .ok ((Network.ofSnapshot s).adjacency.nodes.map
        (Network.ofSnapshot s).adjacency.degree) := by
    rw [Adjacency.nodes, hsize]
    exact mapM_eq_ok fun v hv => degree_of_lt (hsize ▸ List.mem_range.mp hv)
  rw [statistics, hdegrees, ok_bind, componentCount_eq]
  rfl

end Statistics

end Strict

end LinkAnalysis
