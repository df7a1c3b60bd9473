import LinkAnalysis.Centrality.Composite
import LinkAnalysis.Proofs.Score.Scale
import LinkAnalysis.Proofs.Strict.Betweenness
import LinkAnalysis.Report.Analysis

/-!
# Strict centrality

Scores are sorted by a comparison of scores, which in exact arithmetic is a
total order.  Closeness searches from every node, and the composite scores look
up what degrees and closeness say of a node.
-/

namespace LinkAnalysis

/-! ## Descending scores -/

theorem rankedLe_descending :
    Descending Prod.snd Prod.fst (rankedLe : Nat × ℚ → Nat × ℚ → Bool) :=
  descending_compare Prod.snd Prod.fst

theorem ScoredLink.le_descending :
    Descending ScoredLink.score ScoredLink.key
      (ScoredLink.le : ScoredLink ℚ → ScoredLink ℚ → Bool) :=
  descending_compare ScoredLink.score ScoredLink.key

section Sizes

variable {α : Type} [Score α]

theorem size_scaleByMax (values : Array α) :
    (scaleByMax values).size = values.size := by
  simp only [scaleByMax]
  split
  · rfl
  · split
    · exact Array.size_map
    · rfl

/-- Scores with an entry of each kind for each of `n` nodes. -/
structure Centrality.Fits (c : Centrality α) (n : Nat) : Prop where
  size_degree : c.degree.size = n
  size_degreeNormalized : c.degreeNormalized.size = n
  size_closeness : c.closeness.size = n
  size_betweenness : c.betweenness.size = n
  size_composite : c.composite.size = n

end Sizes

theorem ranked_eq
    {α : Type} [Score α] (scores : Array α) :
    ranked scores = ((List.range scores.size).map fun v =>
        (v, scores.getD v Score.zero)).mergeSort rankedLe := by
  have hpairs : scores.toList.zipIdx.map (fun p => (p.2, p.1)) =
      (List.range scores.size).map fun v => (v, scores.getD v Score.zero) := by
    apply List.ext_getElem
    · simp
    · intro v hv hv'
      simp at hv
      simp [hv]
  exact congrArg (List.mergeSort · rankedLe) hpairs

theorem lt_of_mem_ranked
    {α : Type} [Score α] {scores : Array α} {entry : Nat × α}
    (hmem : entry ∈ ranked scores) :
    entry.1 < scores.size := by
  rw [ranked_eq, List.mem_mergeSort] at hmem
  rcases List.mem_map.mp hmem with ⟨v, hv, rfl⟩
  exact List.mem_range.mp hv

theorem lt_of_mem_rankedNodes
    {α : Type} [Score α] {scores : Array α} {entry : (Nat × α) × Nat}
    (hmem : entry ∈ rankedNodes scores) :
    entry.1.1 < scores.size :=
  lt_of_mem_ranked (List.of_mem_zip hmem).1

theorem lt_of_mem_brokers
    {α : Type} [Score α] {scores : Array α} {threshold : α} {entry : Nat × α}
    (hmem : entry ∈ brokers scores threshold) :
    entry.1 < scores.size := by
  rw [brokers, List.mem_mergeSort] at hmem
  have hranked : entry ∈ ranked scores :=
    List.mem_mergeSort.mpr (List.mem_of_mem_filter hmem)
  exact lt_of_mem_ranked hranked

namespace Strict

/-! ## Rankings -/

section Ranking

variable {α : Type} [Score α]

def ranked (scores : Array α) : Strict (List (Nat × α)) := do
  let entries ← (List.range scores.size).mapM fun v => do
    let score ← fetch scores v
    return (v, score)
  sort rankedLe entries

def rankedNodes (scores : Array α) : Strict (List ((Nat × α) × Nat)) := do
  let order ← ranked scores
  return order.zip (competitionRanks (order.map Prod.snd))

def brokers (scores : Array α) (threshold : α) : Strict (List (Nat × α)) :=
  sort rankedLe ((scores.toList.zipIdx.map fun (score, v) => (v, score)).filter
    fun p => decide (threshold < p.2))

end Ranking

theorem sort_of_descending
    {β κ : Type} [LinearOrder κ] {score : β → ℚ} {key : β → κ}
    {le : β → β → Bool}
    (hdescending : Descending score key le)
    (l : List β) :
    sort le l = .ok (l.mergeSort le) :=
  sort_of_total hdescending.total hdescending.trans l

theorem rankedNodes_eq (scores : Array ℚ) :
    rankedNodes scores = .ok (LinkAnalysis.rankedNodes scores) := by
  have hfetch : ∀ v ∈ List.range scores.size, (do
      let score ← fetch scores v
      return (v, score)) = .ok (v, scores.getD v Score.zero) := by
    intro v hv
    rw [fetch_of_lt (List.mem_range.mp hv) Score.zero]
    rfl
  rw [rankedNodes, ranked, mapM_eq_ok hfetch, ok_bind,
    sort_of_descending rankedLe_descending, ← ranked_eq]
  rfl

theorem brokers_eq (scores : Array ℚ) (threshold : ℚ) :
    brokers scores threshold = .ok (LinkAnalysis.brokers scores threshold) :=
  sort_of_descending rankedLe_descending _

/-! ## Closeness and composite scores -/

variable {α : Type} [Score α]

def reachAndTotal (g : Geodesics α) : Strict (Nat × Nat) :=
  g.order.toList.foldlM (fun (reach, total) w => do
    let known ← fetch g.distances w
    match known with
    | some (d + 1) => return (reach + 1, total + (d + 1))
    | _ => return (reach, total)) (0, 0)

def rawCloseness (adj : Adjacency) (v : Nat) : Strict α := do
  let g : Geodesics α ← ofSource adj v
  let (reach, total) ← reachAndTotal g
  return if total = 0 then Score.zero else Score.count reach / Score.count total

def closeness (signal : Signal) (adj : Adjacency) : Strict (Array α) := do
  let raw ← adj.nodes.mapM fun v => do
    poll signal
    rawCloseness adj v
  return scaleByMax raw.toArray

/-- Betweenness scores may be missing; degrees and closeness may not. -/
def centrality (signal : Signal) (adj : Adjacency) (betweenness : Array α)
    (w : Weights α) : Strict (Centrality α) := do
  let degrees ← adj.nodes.mapM (degree adj)
  let degreeNormalized : Array α := normalizeDegrees degrees.toArray
  let close ← closeness signal adj
  let composite ← adj.nodes.mapM fun v => do
    let degree ← fetch degreeNormalized v
    let close ← fetch close v
    return weigh w degree close (betweenness.getD v Score.zero)
  return ⟨degrees.toArray, degreeNormalized, close, betweenness,
    composite.toArray⟩

variable {adj : Adjacency}

theorem rawCloseness_eq
    (hclosed : adj.Closed)
    {v : Nat}
    (hv : v < adj.size) :
    (rawCloseness adj v : Strict α) =
      .ok (LinkAnalysis.rawCloseness adj v) := by
  have hg := Geodesics.Fits.ofSource (α := α) hclosed hv
  have hstep : ∀ found : Nat × Nat, True →
      ∀ w ∈ (Geodesics.ofSource adj v : Geodesics α).order.toList,
        (do
          let known ← fetch (Geodesics.ofSource adj v : Geodesics α).distances w
          match known with
          | some (d + 1) => return (found.1 + 1, found.2 + (d + 1))
          | _ => return (found.1, found.2) : Strict (Nat × Nat)) =
          .ok (match (Geodesics.ofSource adj v : Geodesics α).distanceTo w with
            | some (d + 1) => (found.1 + 1, found.2 + (d + 1))
            | _ => (found.1, found.2)) ∧ True := by
    intro found _ w hw
    have hlt := hg.lt_of_mem_order w (Array.mem_toList_iff.mp hw)
    rw [fetch_of_lt (by rwa [hg.size_distances]) none, ok_bind,
      Geodesics.distanceTo]
    split <;> exact ⟨rfl, trivial⟩
  have hreach : reachAndTotal (Geodesics.ofSource adj v : Geodesics α) =
      .ok (Geodesics.ofSource adj v : Geodesics α).reachAndTotal := by
    rw [Geodesics.reachAndTotal, ← Array.foldl_toList]
    exact (foldlM_eq_ok hstep (0, 0) trivial).1
  rw [rawCloseness, ofSource_eq hclosed hv, ok_bind, hreach]
  rfl

theorem closeness_eq (signal : Signal) (hclosed : adj.Closed) :
    (closeness signal adj : Strict (Array α)) =
      lift (LinkAnalysis.closeness signal adj) := by
  have hstep : ∀ v ∈ adj.nodes,
      (do poll signal; rawCloseness adj v : Strict α) =
        lift (do signal.check; return LinkAnalysis.rawCloseness adj v) := by
    intro v hv
    rw [rawCloseness_eq hclosed (List.mem_range.mp hv)]
    cases signal <;> rfl
  rw [closeness, LinkAnalysis.closeness]
  exact bind_eq_lift (mapM_eq_lift hstep) fun raw _ => rfl

theorem size_closeness
    {signal : Signal} {scores : Array α}
    (hcloseness : LinkAnalysis.closeness signal adj = .ok scores) :
    scores.size = adj.size := by
  rcases exists_of_bind_eq_ok hcloseness with ⟨raw, hraw, heq⟩
  rw [← Except.ok.inj heq, size_scaleByMax, List.size_toArray,
    length_of_mapM hraw]
  exact List.length_range

theorem fits_centrality
    {signal : Signal} {betweenness : Array α} {w : Weights α} {c : Centrality α}
    (hbetweenness : betweenness.size = adj.size)
    (hcentrality : LinkAnalysis.centrality signal adj betweenness w = .ok c) :
    c.Fits adj.size := by
  rcases exists_of_bind_eq_ok hcentrality with ⟨close, hclose, heq⟩
  have hnodes : adj.nodes.length = adj.size := List.length_range
  rw [← Except.ok.inj heq]
  exact
    { size_degree := by rw [List.size_toArray, List.length_map, hnodes]
      size_degreeNormalized := by
        rw [normalizeDegrees, Array.size_map, List.size_toArray,
          List.length_map, hnodes]
      size_closeness := size_closeness hclose
      size_betweenness := hbetweenness
      size_composite := by rw [List.size_toArray, List.length_map, hnodes] }

theorem centrality_eq
    (signal : Signal)
    (hclosed : adj.Closed)
    (betweenness : Array α) (w : Weights α) :
    centrality signal adj betweenness w =
      lift (LinkAnalysis.centrality signal adj betweenness w) := by
  have hdegrees :
      adj.nodes.mapM (degree adj) = .ok (adj.nodes.map adj.degree) :=
    mapM_eq_ok fun v hv => degree_of_lt (List.mem_range.mp hv)
  rw [centrality, hdegrees, ok_bind, LinkAnalysis.centrality]
  apply bind_eq_lift (closeness_eq signal hclosed)
  intro close hclose
  have hcomposite : ∀ v ∈ adj.nodes, (do
      let degree ←
        fetch (normalizeDegrees (adj.nodes.map adj.degree).toArray : Array α) v
      let near ← fetch close v
      return weigh w degree near (betweenness.getD v Score.zero)) =
        .ok (weigh w
          ((normalizeDegrees (adj.nodes.map adj.degree).toArray :
            Array α).getD v Score.zero)
          (close.getD v Score.zero) (betweenness.getD v Score.zero)) := by
    intro v hv
    have hlt := List.mem_range.mp hv
    have hdegree : v < (normalizeDegrees (adj.nodes.map adj.degree).toArray :
          Array α).size := by
      rw [normalizeDegrees, Array.size_map, List.size_toArray, List.length_map]
      exact hlt.trans_eq List.length_range.symm
    rw [fetch_of_lt hdegree Score.zero, ok_bind,
      fetch_of_lt (by rwa [size_closeness hclose]) Score.zero]
    rfl
  rw [mapM_eq_ok hcomposite]
  rfl

end Strict

end LinkAnalysis
