import LinkAnalysis.Centrality.Betweenness
import LinkAnalysis.Proofs.Strict.Geodesics

/-!
# Strict betweenness

The accumulation of betweenness looks up counts, predecessors and dependencies,
and adds to the scores of nodes and links.  A search from a node names only
nodes and links of the adjacency, and no step of the accumulation changes the
size of a table.
-/

namespace LinkAnalysis

variable {α : Type} [Score α]

/-- A tally with an entry for each of `n` nodes and of `m` links. -/
structure Tally.Fits (t : Tally α) (n m : Nat) : Prop where
  size_node : t.node.size = n
  size_link : t.link.size = m
  size_dependency : t.dependency.size = n

theorem Tally.fits_blank (n m : Nat) :
    (Tally.blank n m : Tally α).Fits n m where
  size_node := Array.size_replicate
  size_link := Array.size_replicate
  size_dependency := Array.size_replicate

theorem size_normalize (scores : Array α) :
    (normalize scores).size = scores.size := by
  rw [normalize]
  by_cases hfew : scores.size ≤ 2
  · rw [if_pos hfew, Array.size_map]
  · rw [if_neg hfew, Array.size_map]

namespace Strict

def handOn (g : Geodesics α) (w : Nat) (total : α) (t : Tally α)
    (step : Nat × Nat) : Strict (Tally α) :=
  if Score.zero < total then do
    let count ← fetch g.counts step.1
    let own ← fetch t.dependency w
    let link ← adjust t.link step.2 (· + count / total * (Score.one + own))
    let dependency ← adjust t.dependency step.1
        (· + count / total * (Score.one + own))
    return { t with link := link, dependency := dependency }
  else return t

def settle (g : Geodesics α) (w : Nat) (t : Tally α) : Strict (Tally α) := do
  let total ← fetch g.counts w
  let steps ← fetch g.predecessors w
  let t ← steps.foldlM (handOn g w total) t
  if w = g.source then return t
  else
    let own ← fetch t.dependency w
    let node ← adjust t.node w (· + own)
    return { t with node := node }

def reset (g : Geodesics α) (t : Tally α) : Strict (Tally α) := do
  let dependency ← g.order.toList.foldlM
      (fun d v => store d v Score.zero) t.dependency
  return { t with dependency := dependency }

def addSource (adj : Adjacency) (t : Tally α)
    (source : Nat) : Strict (Tally α) := do
  let g ← ofSource adj source
  let t ← reset g t
  g.order.toList.reverse.foldlM (fun t w => settle g w t) t

def accumulate (signal : Signal) (adj : Adjacency) (m : Nat) :
    Strict (Betweenness α) := do
  let t ← adj.nodes.foldlM (fun t source => do
    poll signal
    addSource adj t source) (Tally.blank adj.size m)
  return ⟨t.node, t.link⟩

def betweenness (signal : Signal) (adj : Adjacency) (m : Nat) :
    Strict (Betweenness α) := do
  let b ← accumulate signal adj m
  return { b with node := normalize b.node }

section Step

variable {g : Geodesics α} {t : Tally α} {n m w : Nat}

theorem handOn_eq
    (hg : g.Fits n)
    (hw : w < n)
    {step : Nat × Nat}
    (hnode : step.1 < n)
    (hlink : step.2 < m)
    (ht : t.Fits n m) :
    handOn g w (g.countOf w) t step = .ok (t.handOn g w step) ∧
      (t.handOn g w step).Fits n m := by
  rw [handOn, Tally.handOn]
  by_cases hpositive : Score.zero < g.countOf w
  · have hcount : step.1 < g.counts.size := by rwa [hg.size_counts]
    have hown : w < t.dependency.size := by rwa [ht.size_dependency]
    have hposition : step.2 < t.link.size := by rwa [ht.size_link]
    have hdependency : step.1 < t.dependency.size := by rwa [ht.size_dependency]
    rw [if_pos hpositive, if_pos hpositive, fetch_of_lt hcount ((0 : Nat) : α),
      ok_bind, fetch_of_lt hown Score.zero, ok_bind, adjust_of_lt hposition,
      ok_bind, adjust_of_lt hdependency]
    exact ⟨rfl, {
      size_node := ht.size_node
      size_link := by rw [Array.size_modify, ht.size_link]
      size_dependency := by rw [Array.size_modify, ht.size_dependency] }⟩
  · rw [if_neg hpositive, if_neg hpositive]
    exact ⟨rfl, ht⟩

theorem settle_eq
    (hg : g.Fits n)
    (hw : w < n)
    (hsteps : ∀ step ∈ g.predecessorsOf w, step.1 < n ∧ step.2 < m)
    (ht : t.Fits n m) :
    settle g w t = .ok (t.settle g w) ∧ (t.settle g w).Fits n m := by
  have hcount : w < g.counts.size := by rwa [hg.size_counts]
  have hpredecessors : w < g.predecessors.size := by rwa [hg.size_predecessors]
  have hstep : ∀ t' : Tally α, t'.Fits n m → ∀ step ∈ g.predecessorsOf w,
      handOn g w (g.countOf w) t' step = .ok (t'.handOn g w step) ∧
      (t'.handOn g w step).Fits n m := by
    intro t' ht' step hstep
    have hlt := hsteps step hstep
    exact handOn_eq hg hw hlt.1 hlt.2 ht'
  have hfold := foldlM_eq_ok hstep t ht
  have hunfold : settle g w t = (do
      let t ← (g.predecessorsOf w).foldlM (handOn g w (g.countOf w)) t
      if w = g.source then return t
      else
        let own ← fetch t.dependency w
        let node ← adjust t.node w (· + own)
        return { t with node := node }) := by
    rw [settle, fetch_of_lt hcount ((0 : Nat) : α), ok_bind,
      fetch_of_lt hpredecessors []]
    rfl
  rw [hunfold, hfold.1, ok_bind, Tally.settle]
  by_cases hsource : w = g.source
  · rw [if_pos hsource, if_pos hsource]
    exact ⟨rfl, hfold.2⟩
  · have hown : w <
        ((g.predecessorsOf w).foldl (Tally.handOn g w) t).dependency.size := by
      rwa [hfold.2.size_dependency]
    have hnode :
        w < ((g.predecessorsOf w).foldl (Tally.handOn g w) t).node.size := by
      rwa [hfold.2.size_node]
    rw [if_neg hsource, if_neg hsource, fetch_of_lt hown Score.zero, ok_bind,
      adjust_of_lt hnode]
    exact ⟨rfl, {
      size_node := by rw [Array.size_modify, hfold.2.size_node]
      size_link := hfold.2.size_link
      size_dependency := hfold.2.size_dependency }⟩

theorem reset_eq
    (hg : g.Fits n)
    (ht : t.Fits n m) :
    reset g t = .ok (t.reset g) ∧ (t.reset g).Fits n m := by
  have hstep : ∀ d : Array α, d.size = n → ∀ v ∈ g.order.toList,
      store d v Score.zero = .ok (d.setIfInBounds v Score.zero) ∧
      (d.setIfInBounds v Score.zero).size = n := by
    intro d hd v hv
    have hlt := hg.lt_of_mem_order v (Array.mem_toList_iff.mp hv)
    rw [store_of_lt (by rwa [hd]), Array.size_setIfInBounds]
    exact ⟨rfl, hd⟩
  have hfold := foldlM_eq_ok hstep t.dependency ht.size_dependency
  rw [reset, hfold.1, Tally.reset, ← Array.foldl_toList]
  exact ⟨rfl, {
    size_node := ht.size_node
    size_link := ht.size_link
    size_dependency := hfold.2 }⟩

end Step

section Source

variable {adj : Adjacency} {m : Nat}

theorem addSource_eq
    (hadj : adj.Bounded m)
    {source : Nat}
    (hsource : source < adj.size)
    {t : Tally α}
    (ht : t.Fits adj.size m) :
    addSource adj t source = .ok (t.addSource adj source) ∧
      (t.addSource adj source).Fits adj.size m := by
  have hg := Geodesics.Fits.ofSource (α := α) hadj.closed hsource
  have hsteps : ∀ w,
      ∀ step ∈ (Geodesics.ofSource adj source : Geodesics α).predecessorsOf w,
        step.1 < adj.size ∧ step.2 < m := by
    intro w step hstep
    rcases (Geodesics.mem_predecessorsOf_ofSource hadj.closed hsource).mp hstep
      with ⟨hneighbor, k, hdistance, -⟩
    exact ⟨hg.lt_of_distanceTo hdistance,
      hadj.position_lt step.1 (w, step.2) hneighbor⟩
  have hstep : ∀ t' : Tally α, t'.Fits adj.size m →
      ∀ w ∈ (Geodesics.ofSource adj source : Geodesics α).order.toList.reverse,
        settle (Geodesics.ofSource adj source) w t' =
          .ok (t'.settle (Geodesics.ofSource adj source) w) ∧
        (t'.settle (Geodesics.ofSource adj source) w).Fits adj.size m := by
    intro t' ht' w hw
    have hlt :=
      hg.lt_of_mem_order w (Array.mem_toList_iff.mp (List.mem_reverse.mp hw))
    exact settle_eq hg hlt (hsteps w) ht'
  have hreset := reset_eq hg ht
  rw [addSource, ofSource_eq hadj.closed hsource, ok_bind, hreset.1, ok_bind,
    Tally.addSource, ← Array.foldr_toList, ← List.foldl_reverse]
  exact foldlM_eq_ok hstep _ hreset.2

theorem accumulate_eq (signal : Signal) (hadj : adj.Bounded m) :
    (accumulate signal adj m : Strict (Betweenness α)) =
        lift (LinkAnalysis.accumulate signal adj m) ∧
      ∀ b : Betweenness α, LinkAnalysis.accumulate signal adj m = .ok b →
        b.node.size = adj.size ∧ b.link.size = m := by
  have hstep : ∀ t : Tally α, t.Fits adj.size m → ∀ source ∈ adj.nodes,
      (do poll signal; addSource adj t source) =
          lift (do signal.check; return t.addSource adj source) ∧
        ∀ t',
          (do signal.check; return t.addSource adj source :
              Except Fault (Tally α)) = .ok t' →
            t'.Fits adj.size m := by
    intro t ht source hsource
    have hadd := addSource_eq hadj (List.mem_range.mp hsource) ht
    cases signal with
    | live => exact ⟨hadd.1, fun t' heq => Except.ok.inj heq ▸ hadd.2⟩
    | cancelled => exact ⟨rfl, fun t' heq => nomatch heq⟩
  have hfold :=
    foldlM_eq_lift hstep (Tally.blank adj.size m) (Tally.fits_blank adj.size m)
  constructor
  · rw [accumulate, LinkAnalysis.accumulate]
    exact bind_eq_lift hfold.1 fun t _ => rfl
  · intro b hb
    rw [LinkAnalysis.accumulate] at hb
    rcases exists_of_bind_eq_ok hb with ⟨t, ht, heq⟩
    have hfits := hfold.2 t ht
    rw [← Except.ok.inj heq]
    exact ⟨hfits.size_node, hfits.size_link⟩

theorem betweenness_eq (signal : Signal) (hadj : adj.Bounded m) :
    (betweenness signal adj m : Strict (Betweenness α)) =
        lift (LinkAnalysis.betweenness signal adj m) ∧
      ∀ b : Betweenness α, LinkAnalysis.betweenness signal adj m = .ok b →
        b.node.size = adj.size ∧ b.link.size = m := by
  have haccumulate := accumulate_eq (α := α) signal hadj
  constructor
  · rw [betweenness, LinkAnalysis.betweenness]
    exact bind_eq_lift haccumulate.1 fun b _ => rfl
  · intro b hb
    rw [LinkAnalysis.betweenness] at hb
    rcases exists_of_bind_eq_ok hb with ⟨raw, hraw, heq⟩
    have hsizes := haccumulate.2 raw hraw
    rw [← Except.ok.inj heq]
    exact ⟨by rw [size_normalize, hsizes.1], hsizes.2⟩

end Source

end Strict

end LinkAnalysis
