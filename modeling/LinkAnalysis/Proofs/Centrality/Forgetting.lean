import LinkAnalysis.Proofs.Centrality.Accumulation
import LinkAnalysis.Proofs.Network.Search
import LinkAnalysis.Proofs.Strict.Basic

/-!
# Forgotten dependencies

The accumulation of betweenness has one table of dependencies for all sources,
and resets it only where the present source reaches.  A program with a memory
forgets the whole table before every source, and gets stuck where it looks up
what it has forgotten.  It never does: the search names a node as a predecessor
only after it has discovered it.

In the memory nothing is left of earlier sources.  So the scores do not depend
on what the table still holds, and a new table for every source would serve as
well.
-/

namespace LinkAnalysis

/-! ## Predecessors are discovered -/

namespace Geodesics

variable {α : Type} {g : Geodesics α} {v w : Nat} {step : Nat × Nat}

/-- All predecessors have been discovered. -/
def DiscoversPredecessors (g : Geodesics α) : Prop :=
  ∀ w, ∀ step ∈ g.predecessorsOf w, step.1 ∈ g.order

namespace DiscoversPredecessors

theorem discover (hdiscovers : g.DiscoversPredecessors) (distance w : Nat) :
    (g.discover distance w).DiscoversPredecessors := by
  intro v step hstep
  rw [predecessorsOf, predecessors_discover] at hstep
  exact (extends_discover g distance w).mem_order (hdiscovers v step hstep)

variable [NatCast α]

theorem start (n s : Nat) :
    (Geodesics.start n s : Geodesics α).DiscoversPredecessors := by
  intro w step hstep
  rw [predecessorsOf_start] at hstep
  exact absurd hstep List.not_mem_nil

variable [Add α]

theorem follow
    (hdiscovers : g.DiscoversPredecessors)
    (hv : v ∈ g.order)
    (distance : Nat) (step : Nat × Nat) :
    (g.follow v distance step).DiscoversPredecessors := by
  have hdiscover := hdiscovers.discover distance step.1
  rw [follow_eq]
  split
  · intro w step' hstep'
    rcases mem_predecessorsOf_record hstep' with hold | hnew
    · exact hdiscover w step' hold
    · rw [hnew]
      exact (extends_discover g distance step.1).mem_order hv
  · exact hdiscover

theorem visit
    (hdiscovers : g.DiscoversPredecessors)
    (hv : v ∈ g.order)
    (adj : Adjacency) :
    (g.visit adj v).DiscoversPredecessors := by
  unfold Geodesics.visit
  rw [← Array.foldl_toList]
  have hboth :=
    List.foldlRecOn (motive := fun g : Geodesics α => g.DiscoversPredecessors ∧
      v ∈ g.order) (adj.neighbors v).toList (Geodesics.follow v
      ((g.distanceTo v).elim 0 (· + 1))) ⟨hdiscovers, hv⟩ fun g hg step _ =>
      ⟨hg.1.follow hg.2 _ step, (extends_follow g v _ step).mem_order hg.2⟩
  exact hboth.1

theorem explore
    (hdiscovers : g.DiscoversPredecessors)
    (adj : Adjacency) (visits head : Nat) :
    (Geodesics.explore adj visits head g).DiscoversPredecessors := by
  induction visits generalizing head g with
  | zero => exact hdiscovers
  | succ visits ih =>
      rw [Geodesics.explore]
      cases hget : g.order[head]? with
      | none => exact hdiscovers
      | some v =>
          exact ih (hdiscovers.visit (Array.mem_of_getElem? hget) adj)
            (head + 1)

theorem ofSource (adj : Adjacency) (s : Nat) :
    (Geodesics.ofSource adj s : Geodesics α).DiscoversPredecessors :=
  (start adj.size s).explore adj adj.size 0

end DiscoversPredecessors

end Geodesics

variable {α : Type} [Score α]

/-! ## New tables -/

/-- Add the shares of all walks from one source, with a new table of
dependencies. -/
def Tally.addSourceAfresh (adj : Adjacency) (t : Tally α)
    (source : Nat) : Tally α :=
  let g : Geodesics α := Geodesics.ofSource adj source
  g.order.foldr (settle g)
    { t with dependency := Array.replicate adj.size Score.zero }

/-- The scores of all nodes and of `m` links, where `add` adds the shares of a
source. -/
def accumulateBy (add : Tally α → Nat → Tally α) (signal : Signal)
    (adj : Adjacency) (m : Nat) : Except Fault (Betweenness α) := do
  let t ← adj.nodes.foldlM (fun t source => do
    signal.check
    return add t source) (Tally.blank adj.size m)
  return ⟨t.node, t.link⟩

/-- The scores of all nodes and of `m` links, with a new table of dependencies
for every source. -/
def accumulateAfresh (signal : Signal) (adj : Adjacency) (m : Nat) :
    Except Fault (Betweenness α) :=
  accumulateBy (Tally.addSourceAfresh adj) signal adj m

/-! ## Memories -/

/-- The scores accumulated so far, and the dependencies that were set for the
present source. -/
structure Memory (α : Type) where
  node : Array α
  link : Array α
  dependency : Array (Option α)

namespace Memory

def blank (n m : Nat) : Memory α :=
  ⟨Array.replicate n Score.zero, Array.replicate m Score.zero,
    Array.replicate n none⟩

/-- Look up a dependency.  There is none to look up unless it was set for the
present source; beyond the table every dependency is zero. -/
def lookUp (t : Memory α) (v : Nat) : Strict α :=
  match t.dependency[v]? with
  | some none => .error .stuck
  | some (some x) => .ok x
  | none => .ok Score.zero

/-- A share is added to a dependency that has to be looked up as well. -/
def handOn (g : Geodesics α) (w : Nat) (t : Memory α)
    (step : Nat × Nat) : Strict (Memory α) :=
  let total := g.countOf w
  if Score.zero < total then do
    let own ← t.lookUp w
    let collected ← t.lookUp step.1
    let share := g.countOf step.1 / total * (Score.one + own)
    return { t with
      link := t.link.modify step.2 (· + share)
      dependency :=
        t.dependency.setIfInBounds step.1 (some (collected + share)) }
  else return t

def settle (g : Geodesics α) (w : Nat) (t : Memory α) : Strict (Memory α) := do
  let t ← (g.predecessorsOf w).foldlM (handOn g w) t
  if w = g.source then return t
  else
    let own ← t.lookUp w
    return { t with node := t.node.modify w (· + own) }

/-- Forget all dependencies, and set those that the present source reaches. -/
def reset (g : Geodesics α) (t : Memory α) : Memory α :=
  { t with
    dependency := g.order.foldl (fun d v => d.setIfInBounds v (some Score.zero))
      (Array.replicate t.dependency.size none) }

def addSource (adj : Adjacency) (t : Memory α)
    (source : Nat) : Strict (Memory α) :=
  let g : Geodesics α := Geodesics.ofSource adj source
  g.order.toList.reverse.foldlM (fun t w => t.settle g w) (t.reset g)

def accumulate (signal : Signal) (adj : Adjacency) (m : Nat) :
    Strict (Betweenness α) := do
  let t ← adj.nodes.foldlM (fun t source => do
    Strict.poll signal
    addSource adj t source) (blank adj.size m)
  return ⟨t.node, t.link⟩

/-- A memory and a tally with the same scores, and with the same dependencies of
these nodes. -/
structure Holds (n : Nat) (nodes : Nat → Prop) (u : Memory α)
    (t : Tally α) : Prop where
  node_eq : u.node = t.node
  link_eq : u.link = t.link
  size_eq : u.dependency.size = n
  size_dependency : t.dependency.size = n
  dependency_eq : ∀ v, nodes v → u.dependency[v]? = t.dependency[v]?.map some

namespace Holds

variable {n v w : Nat} {nodes : Nat → Prop} {u : Memory α} {t : Tally α}
  {g : Geodesics α}

theorem blank (n m : Nat) :
    Holds n (fun _ => False) (Memory.blank n m)
      (Tally.blank n m : Tally α) where
  node_eq := rfl
  link_eq := rfl
  size_eq := Array.size_replicate
  size_dependency := Array.size_replicate
  dependency_eq := fun _ hv => hv.elim

theorem lookUp_eq
    (hholds : Holds n nodes u t)
    (hv : nodes v) :
    u.lookUp v = .ok (t.dependencyOf v) := by
  unfold lookUp Tally.dependencyOf
  rw [hholds.dependency_eq v hv, Array.getD_eq_getD_getElem?]
  cases t.dependency[v]? with
  | none => rfl
  | some x => rfl

theorem handOn
    (hholds : Holds n nodes u t)
    (hw : nodes w)
    {step : Nat × Nat}
    (hstep : nodes step.1) :
    ∃ u', Memory.handOn g w u step = .ok u' ∧
      Holds n nodes u' (Tally.handOn g w t step) := by
  unfold Memory.handOn Tally.handOn
  by_cases hpositive : Score.zero < g.countOf w
  · rw [if_pos hpositive, if_pos hpositive, hholds.lookUp_eq hw, Strict.ok_bind,
      hholds.lookUp_eq hstep, Strict.ok_bind]
    refine ⟨_, rfl, ?_⟩
    exact
      { node_eq := hholds.node_eq
        link_eq := by rw [hholds.link_eq]
        size_eq := by rw [Array.size_setIfInBounds, hholds.size_eq]
        size_dependency := by rw [Array.size_modify, hholds.size_dependency]
        dependency_eq := fun v hv => by
          rw [Array.getElem?_setIfInBounds, Array.getElem?_modify,
            hholds.dependency_eq v hv]
          by_cases hsame : step.1 = v
          · subst v
            rw [Tally.dependencyOf, Array.getD_eq_getD_getElem?, hholds.size_eq,
              ← hholds.size_dependency]
            by_cases hlt : step.1 < t.dependency.size <;> simp [hlt]
          · simp [hsame] }
  · rw [if_neg hpositive, if_neg hpositive]
    exact ⟨u, rfl, hholds⟩

theorem settle
    (hholds : Holds n nodes u t)
    (hw : nodes w)
    (hsteps : ∀ step ∈ g.predecessorsOf w, nodes step.1) :
    ∃ u', Memory.settle g w u = .ok u' ∧
      Holds n nodes u' (Tally.settle g w t) := by
  have hstep : ∀ u t, Holds n nodes u t →
      ∀ step ∈ g.predecessorsOf w, ∃ u', Memory.handOn g w u step = .ok u' ∧
        Holds n nodes u' (Tally.handOn g w t step) :=
    fun u t ht step hmem => ht.handOn hw (hsteps step hmem)
  rcases Strict.foldlM_rel hstep hholds with ⟨u', heq, hholdsAfter⟩
  unfold Memory.settle Tally.settle
  rw [heq, Strict.ok_bind]
  by_cases hsource : w = g.source
  · rw [if_pos hsource, if_pos hsource]
    exact ⟨u', rfl, hholdsAfter⟩
  · rw [if_neg hsource, if_neg hsource, hholdsAfter.lookUp_eq hw,
      Strict.ok_bind]
    exact ⟨_, rfl, { hholdsAfter with node_eq := by rw [hholdsAfter.node_eq] }⟩

/-! ## Sources -/

/-- Whatever else the table holds, it has to hold zero where the source
reaches. -/
theorem of_reset
    (hholds : Holds n nodes u t)
    {d : Array α}
    (hsize : d.size = n)
    (hzero : ∀ v ∈ g.order, v < n → d[v]? = some Score.zero) :
    Holds n (· ∈ g.order) (u.reset g) { t with dependency := d } where
  node_eq := hholds.node_eq
  link_eq := hholds.link_eq
  size_eq := by
    rw [reset, ← Array.foldl_toList, size_foldl_setIfInBounds,
      Array.size_replicate, hholds.size_eq]
  size_dependency := hsize
  dependency_eq := fun v hv => by
    rw [reset, ← Array.foldl_toList, getElem?_foldl_setIfInBounds,
      Array.size_replicate, hholds.size_eq]
    by_cases hlt : v < n
    · rw [if_pos ⟨Array.mem_toList_iff.mpr hv, hlt⟩, hzero v hv hlt,
        Option.map_some]
    · rw [if_neg fun hboth => hlt hboth.2, Array.getElem?_replicate,
        if_neg hlt, Array.getElem?_eq_none (hsize.trans_le (not_lt.mp hlt)),
        Option.map_none]

theorem reset (hholds : Holds n nodes u t) (g : Geodesics α) :
    Holds n (· ∈ g.order) (u.reset g) (t.reset g) := by
  apply hholds.of_reset
    ((Tally.sameSize_reset g t).dependency.trans hholds.size_dependency)
  intro v hv hlt
  rw [Tally.reset, ← Array.foldl_toList, getElem?_foldl_setIfInBounds,
    hholds.size_dependency, if_pos ⟨Array.mem_toList_iff.mpr hv, hlt⟩]

theorem renew (hholds : Holds n nodes u t) (g : Geodesics α) :
    Holds n (· ∈ g.order) (u.reset g)
      { t with dependency := Array.replicate n Score.zero } := by
  apply hholds.of_reset Array.size_replicate
  intro v _ hlt
  rw [Array.getElem?_replicate, if_pos hlt]

/-- All nodes that the source reaches are settled, and nothing that was
forgotten is looked up. -/
theorem settleAll
    (hholds : Holds n (· ∈ g.order) u t)
    (hg : g.DiscoversPredecessors) :
    ∃ u', g.order.toList.reverse.foldlM (fun u w => u.settle g w) u = .ok u' ∧
      Holds n (fun _ => False) u' (g.order.foldr (Tally.settle g) t) := by
  have hstep : ∀ u t, Holds n (· ∈ g.order) u t →
      ∀ w ∈ g.order.toList.reverse, ∃ u', Memory.settle g w u = .ok u' ∧
        Holds n (· ∈ g.order) u' (Tally.settle g w t) :=
    fun u t ht w hw =>
      ht.settle (Array.mem_toList_iff.mp (List.mem_reverse.mp hw)) (hg w)
  rcases Strict.foldlM_rel hstep hholds with ⟨u', heq, hholdsAfter⟩
  rw [← Array.foldr_toList, ← List.foldl_reverse]
  exact ⟨u', heq, { hholdsAfter with dependency_eq := fun _ hv => hv.elim }⟩

theorem addSource
    (hholds : Holds n nodes u t)
    (adj : Adjacency) (s : Nat) :
    ∃ u', u.addSource adj s = .ok u' ∧
      Holds n (fun _ => False) u' (t.addSource adj s) :=
  (hholds.reset (Geodesics.ofSource adj s)).settleAll (.ofSource adj s)

theorem addSourceAfresh
    {adj : Adjacency}
    (hholds : Holds adj.size nodes u t)
    (s : Nat) :
    ∃ u', u.addSource adj s = .ok u' ∧
      Holds adj.size (fun _ => False) u' (t.addSourceAfresh adj s) :=
  (hholds.renew (Geodesics.ofSource adj s)).settleAll (.ofSource adj s)

end Holds

/-- However the shares of a source are added, the scores are those of the
memory, if the shares of one source are. -/
theorem accumulate_eq
    {adj : Adjacency} {add : Tally α → Nat → Tally α}
    (hadd : ∀ u t, Holds adj.size (fun _ => False) u t → ∀ s ∈ adj.nodes, ∃ u',
      u.addSource adj s = .ok u' ∧ Holds adj.size (fun _ => False) u' (add t s))
    (signal : Signal) (m : Nat) :
    accumulate signal adj m = Strict.lift (accumulateBy add signal adj m) := by
  cases signal with
  | live =>
      rcases Strict.foldlM_rel hadd (Holds.blank adj.size m)
        with ⟨u', heq, hholdsAfter⟩
      have hloop : adj.nodes.foldlM (fun t source => do
          Strict.poll .live
          addSource adj t source) (blank adj.size m) = .ok u' := heq
      rw [accumulate, hloop, accumulateBy, foldlM_live]
      change (.ok ⟨u'.node, u'.link⟩ : Strict (Betweenness α)) = .ok ⟨_, _⟩
      rw [hholdsAfter.node_eq, hholdsAfter.link_eq]
  | cancelled =>
      rw [accumulate, accumulateBy]
      cases adj.nodes with
      | nil => rfl
      | cons s more => rfl

end Memory

/-- Reusing the table of dependencies is harmless, in any arithmetic: the scores
are the same as with a new table for every source, and no dependency that an
earlier source has left is looked up. -/
theorem accumulate_forgets
    (signal : Signal) (adj : Adjacency) (m : Nat) :
    (accumulate signal adj m : Except Fault (Betweenness α)) =
        accumulateAfresh signal adj m ∧
      Memory.accumulate signal adj m = Strict.lift
        (accumulate signal adj m : Except Fault (Betweenness α)) := by
  have hreused : Memory.accumulate signal adj m =
      Strict.lift (accumulate signal adj m : Except Fault (Betweenness α)) :=
    Memory.accumulate_eq (fun _ _ hholds s _ => hholds.addSource adj s) signal m
  have hafresh : Memory.accumulate signal adj m = Strict.lift
      (accumulateAfresh signal adj m : Except Fault (Betweenness α)) :=
    Memory.accumulate_eq (fun _ _ hholds s _ =>
      hholds.addSourceAfresh s) signal m
  exact ⟨Strict.lift_injective (hreused.symm.trans hafresh), hreused⟩

/-- The table does hold what earlier sources have left where the present one
does not reach. -/
example : ([0, 1].foldl (Tally.addSource ⟨#[#[(2, 0)],
        #[(3, 1)], #[(0, 0), (4, 2)], #[(1, 1)], #[(2, 2)]]⟩) (Tally.blank 5 3 :
      Tally ℚ)).dependencyOf 2 = 1 := by
  decide +kernel

end LinkAnalysis
