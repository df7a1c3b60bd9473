import LinkAnalysis.Proofs.Network.Rearrangement
import LinkAnalysis.Proofs.Report.Communities
import LinkAnalysis.Proofs.Report.Outcome
import LinkAnalysis.Proofs.Report.Ranks
import Mathlib

/-!
# Complete rankings

The reports on betweenness and on centrality rank all nodes.  Every node stands
in such a ranking once, with its own label and its own scores, and so does every
link in the list of links.
-/

namespace LinkAnalysis

open Network

/-! ## Sorted scores -/

section Sorted

theorem mem_ranked_iff
    {α : Type} [Score α] {scores : Array α} {v : Nat} {x : α} :
    (v, x) ∈ ranked scores ↔ scores[v]? = some x := by
  rw [ranked, List.mem_mergeSort, ← mem_scoredItems_iff]
  rfl

theorem map_fst_ranked_perm
    {α : Type} [Score α] (scores : Array α) :
    ((ranked scores).map Prod.fst).Perm (List.range scores.size) := by
  rw [← map_fst_scoredItems]
  exact (List.mergeSort_perm _ _).map _

/-- Higher scores stand first, and equal scores in the order of their
numbers. -/
theorem ranked_descending (scores : Array ℚ) :
    (ranked scores).Pairwise fun x y => y.2 < x.2 ∨ y.2 = x.2 ∧ x.1 < y.1 := by
  have hdistinct : (ranked scores).Pairwise fun x y => x.1 ≠ y.1 :=
    List.pairwise_map.mp ((map_fst_ranked_perm scores).nodup_iff.mpr
      List.nodup_range)
  have hsorted : (ranked scores).Pairwise fun x y => rankedLe x y = true :=
    rankedLe_descending.pairwise_mergeSort _
  refine (hsorted.and hdistinct).imp fun {x y} hxy => ?_
  exact ((rankedLe_descending x y).mp hxy.1).imp_right fun ⟨heq, hle⟩ =>
    ⟨heq, lt_of_le_of_ne hle hxy.2⟩

end Sorted

/-! ## Labels -/

/-- The label that a node is shown with: its own, or its id where it has
none. -/
def Node.shownLabel (node : Node) : String :=
  if node.label = "" then node.id else node.label

theorem Snapshot.labelOf_id
    {s : Snapshot} {node : Node}
    (hnode : node ∈ s.nodes) :
    s.labelOf node.id = node.shownLabel := by
  rw [labelOf, node?_eq_some_iff.mpr ⟨hnode, rfl⟩]
  rfl

/-! ## Ranked records -/

section Records

variable {s : Snapshot} {β : Type} {scores : Array ℚ} {record : (Nat × ℚ) ×
  Nat → β} {id label : β → String} {score : β → ℚ} {rank : β → Nat}

theorem isRanking_rankedNodes
    (hsize : scores.size = (Network.ofSnapshot s).size)
    (hid : ∀ item, id (record item) = (Network.ofSnapshot s).idOf item.1.1)
    (hscore : ∀ item, score (record item) = item.1.2)
    (hrank : ∀ item, rank (record item) = item.2) :
    IsRanking score id rank ((rankedNodes scores).map record) := by
  apply isRanking_of_map_eq
  · have hscores : ((rankedNodes scores).map record).map score =
        (ranked scores).map Prod.snd := by
      rw [← map_fst_rankedNodes, List.map_map, List.map_map]
      exact List.map_congr_left fun item _ => hscore item
    have hranks : ((rankedNodes scores).map record).map rank =
        (rankedNodes scores).map Prod.snd := by
      rw [List.map_map]
      exact List.map_congr_left fun item _ => hrank item
    rw [hscores, hranks, map_snd_rankedNodes]
  · have hdescending := ranked_descending scores
    rw [← map_fst_rankedNodes, List.pairwise_map] at hdescending
    rw [List.pairwise_map]
    refine hdescending.imp_of_mem fun {x y} _ hy hxy => ?_
    rw [hscore, hscore, hid, hid]
    exact hxy.imp_right fun ⟨heq, hlt⟩ =>
      ⟨heq, utf8Bytes_idOf_lt hlt ((lt_of_mem_rankedNodes hy).trans_eq hsize)⟩

/-- Every node has one record, with its own label. -/
theorem map_record_rankedNodes_perm
    (hsize : scores.size = (Network.ofSnapshot s).size)
    (hid : ∀ item, id (record item) = (Network.ofSnapshot s).idOf item.1.1)
    (hlabel : ∀ item,
      label (record item) = s.labelOf ((Network.ofSnapshot s).idOf item.1.1)) :
    (((rankedNodes scores).map record).map fun r => (id r, label r)).Perm
      (s.nodes.map fun node => (node.id, node.shownLabel)) := by
  have hrecords :
      ((rankedNodes scores).map record).map (fun r => (id r, label r)) =
        (((ranked scores).map Prod.fst).map (Network.ofSnapshot s).idOf).map
          fun x => (x, s.labelOf x) := by
    rw [← map_fst_rankedNodes, List.map_map, List.map_map, List.map_map,
      List.map_map]
    exact List.map_congr_left fun item _ => by simp [hid, hlabel]
  have hids :
      (((ranked scores).map Prod.fst).map (Network.ofSnapshot s).idOf).Perm
        (s.nodes.map Node.id) := by
    refine ((map_fst_ranked_perm scores).map _).trans ?_
    rw [hsize]
    exact map_idOf_range_perm s
  have hlabels : (s.nodes.map Node.id).map (fun x => (x, s.labelOf x)) =
      s.nodes.map fun node => (node.id, node.shownLabel) := by
    rw [List.map_map]
    exact List.map_congr_left fun node hnode =>
      congrArg (Prod.mk node.id) (Snapshot.labelOf_id hnode)
  rw [hrecords, ← hlabels]
  exact hids.map _

variable (id) in
theorem exists_item_of_mem_map_rankedNodes
    (hsize : scores.size = (Network.ofSnapshot s).size)
    (hid : ∀ item, id (record item) = (Network.ofSnapshot s).idOf item.1.1)
    {r : β}
    (hr : r ∈ (rankedNodes scores).map record) :
    ∃ v x rank,
      (Network.ofSnapshot s).indexOf? (id r) = some v ∧
      scores[v]? = some x ∧
      r = record ((v, x), rank) := by
  obtain ⟨⟨⟨v, x⟩, rank⟩, hitem, rfl⟩ := List.mem_map.mp hr
  have hlt : v < (Network.ofSnapshot s).size :=
    (lt_of_mem_rankedNodes hitem).trans_eq hsize
  refine ⟨v, x, rank, ?_, mem_ranked_iff.mp (List.of_mem_zip hitem).1, rfl⟩
  rw [hid]
  exact indexOf?_ofSnapshot_iff.mpr ⟨hlt, rfl⟩

end Records

/-! ## Scored links -/

section Links

variable {net : Network} {scores : Array ℚ}

theorem map_zip_links (hsize : scores.size = net.linkCount) :
    ((net.links.toList.zip scores.toList).map fun (link, score) =>
          ((⟨link.key, score⟩ : ScoredLink ℚ).key, some score)) =
      (List.range net.linkCount).map fun e => (net.keyOf e, scores[e]?) := by
  have hlinks : net.links.size = net.linkCount := rfl
  apply List.ext_getElem
  · simp [hsize, hlinks]
  · intro e he he'
    have hlt : e < net.linkCount := by simpa using he'
    simp [Network.keyOf, hlt, hlinks, hsize]

end Links

/-! ## Reports -/

/-- The report ranks all nodes by these scores, and lists all links by
theirs. -/
structure BetweennessReport.RanksAll (s : Snapshot) (b : Betweenness ℚ)
    (r : BetweennessReport ℚ) : Prop where
  nodes_perm : (r.nodes.map fun n => (n.id, n.label)).Perm
    (s.nodes.map fun node => (node.id, node.shownLabel))
  score_eq : ∀ n ∈ r.nodes, ∃ v, (Network.ofSnapshot s).indexOf? n.id = some v ∧
    b.node[v]? = some n.score
  ranking : IsRanking RankedNode.score RankedNode.id RankedNode.rank r.nodes
  links_perm : (r.links.map fun l => (l.key, some l.score)).Perm
    ((List.range (Network.ofSnapshot s).linkCount).map fun e =>
      ((Network.ofSnapshot s).keyOf e, b.link[e]?))
  links_descending : r.links.Pairwise fun x y =>
    y.score < x.score ∨ y.score = x.score ∧ utf8Bytes x.key ≤ utf8Bytes y.key

/-- The report ranks all nodes by their composite scores. -/
structure CentralityReport.RanksAll (s : Snapshot) (c : Centrality ℚ)
    (r : CentralityReport ℚ) : Prop where
  nodes_perm : (r.nodes.map fun n => (n.id, n.label)).Perm
    (s.nodes.map fun node => (node.id, node.shownLabel))
  scores_eq : ∀ n ∈ r.nodes, ∃ v,
    (Network.ofSnapshot s).indexOf? n.id = some v ∧
    c.degree[v]? = some n.degree ∧
    c.degreeNormalized[v]? = some n.degreeNormalized ∧
    c.closeness[v]? = some n.closeness ∧
    c.betweenness[v]? = some n.betweenness ∧
    c.composite[v]? = some n.score
  ranking : IsRanking CentralityRecord.score CentralityRecord.id
    CentralityRecord.rank r.nodes

theorem BetweennessReport.ranksAll
    {s : Snapshot} {b : Betweenness ℚ} {r : BetweennessReport ℚ}
    (hnode : b.node.size = (Network.ofSnapshot s).size)
    (hlink : b.link.size = (Network.ofSnapshot s).linkCount)
    (hnodes : r.nodes = (rankedNodes b.node).map fun ((v, score), rank) =>
      ⟨(Network.ofSnapshot s).idOf v, s.labelOf ((Network.ofSnapshot s).idOf v),
        score, rank⟩)
    (hlinks : r.links = (((Network.ofSnapshot s).links.toList.zip
        b.link.toList).map fun (link, score) =>
        (⟨link.key, score⟩ : ScoredLink ℚ)).mergeSort ScoredLink.le) :
    r.RanksAll s b where
  nodes_perm := by
    rw [hnodes]
    exact map_record_rankedNodes_perm hnode (fun _ => rfl) fun _ => rfl
  score_eq n hn := by
    rw [hnodes] at hn
    obtain ⟨v, x, rank, hindex, hx, rfl⟩ :=
      exists_item_of_mem_map_rankedNodes RankedNode.id hnode (fun _ => rfl) hn
    exact ⟨v, hindex, hx⟩
  ranking := by
    rw [hnodes]
    exact isRanking_rankedNodes hnode (fun _ => rfl) (fun _ => rfl) fun _ => rfl
  links_perm := by
    rw [hlinks, ← map_zip_links hlink]
    refine ((List.mergeSort_perm _ _).map _).trans ?_
    rw [List.map_map]
    rfl
  links_descending := by
    rw [hlinks]
    refine (ScoredLink.le_descending.pairwise_mergeSort _).imp
      fun {x y} hxy => ?_
    refine ((ScoredLink.le_descending x y).mp hxy).imp_right
      fun ⟨heq, hle⟩ => ⟨heq, ?_⟩
    exact List.not_lt.mp fun hlt => (utf8Bytes_lt_iff.mp hlt).not_ge hle

theorem CentralityReport.ranksAll
    {s : Snapshot} {c : Centrality ℚ} {r : CentralityReport ℚ}
    (hfits : c.Fits (Network.ofSnapshot s).size)
    (hnodes : r.nodes = (rankedNodes c.composite).map fun ((v, score), rank) =>
      { id := (Network.ofSnapshot s).idOf v
        label := s.labelOf ((Network.ofSnapshot s).idOf v)
        degree := c.degree.getD v 0
        degreeNormalized := c.degreeNormalized.getD v Score.zero
        closeness := c.closeness.getD v Score.zero
        betweenness := c.betweenness.getD v Score.zero
        score := score
        rank := rank }) :
    r.RanksAll s c where
  nodes_perm := by
    rw [hnodes]
    exact map_record_rankedNodes_perm hfits.size_composite
      (fun _ => rfl) fun _ => rfl
  scores_eq n hn := by
    rw [hnodes] at hn
    obtain ⟨v, x, rank, hindex, hx, rfl⟩ := exists_item_of_mem_map_rankedNodes
      CentralityRecord.id hfits.size_composite (fun _ => rfl) hn
    have hlt : v < (Network.ofSnapshot s).size :=
      (indexOf?_ofSnapshot_iff.mp hindex).1
    have hget : ∀ {γ : Type} {values : Array γ} (default : γ),
        values.size = (Network.ofSnapshot s).size →
          values[v]? = some (values.getD v default) := by
      intro γ values default hsize
      simp [hsize, hlt]
    exact ⟨v, hindex, hget 0 hfits.size_degree,
      hget _ hfits.size_degreeNormalized, hget _ hfits.size_closeness,
      hget _ hfits.size_betweenness, hx⟩
  ranking := by
    rw [hnodes]
    exact isRanking_rankedNodes hfits.size_composite
      (fun _ => rfl) (fun _ => rfl) fun _ => rfl

section Analyses

variable {s : Snapshot} {b : Betweenness ℚ}
  (hb : LinkAnalysis.betweenness .live (Network.ofSnapshot s).adjacency
    (Network.ofSnapshot s).linkCount = .ok b)

include hb

theorem Analysis.exists_betweenness :
    ∃ r : BetweennessReport ℚ,
      Analysis.betweenness .live s = .ok r ∧ r.RanksAll s b := by
  obtain ⟨hnode, hlink⟩ :=
    (Strict.betweenness_eq .live (bounded_ofSnapshot s)).2 b hb
  rw [size_adjacency_ofSnapshot] at hnode
  simp only [Analysis.betweenness, hb]
  exact ⟨_, rfl, BetweennessReport.ranksAll hnode hlink rfl rfl⟩

theorem Analysis.exists_centrality
    {config : Config ℚ} {c : Centrality ℚ}
    (hc : LinkAnalysis.centrality .live (Network.ofSnapshot s).adjacency b.node
        config.weights = .ok c) :
    ∃ r : CentralityReport ℚ,
      Analysis.centrality config .live s = .ok r ∧ r.RanksAll s c := by
  have hnode := ((Strict.betweenness_eq .live (bounded_ofSnapshot s)).2 b hb).1
  have hfits := Strict.fits_centrality hnode hc
  rw [size_adjacency_ofSnapshot] at hfits
  simp only [Analysis.centrality, hb]
  simp only [bind, Except.bind, hc]
  exact ⟨_, rfl, CentralityReport.ranksAll hfits rfl⟩

end Analyses

/-- Both rankings are complete: they list every node with what was computed for
it, and rank the nodes as in a competition. -/
theorem Analysis.rankings_complete (config : Config ℚ) (s : Snapshot) :
    ∃ (b : Betweenness ℚ) (c : Centrality ℚ) (r : BetweennessReport ℚ)
        (r' : CentralityReport ℚ),
      LinkAnalysis.betweenness .live (Network.ofSnapshot s).adjacency
            (Network.ofSnapshot s).linkCount = .ok b ∧
        LinkAnalysis.centrality .live (Network.ofSnapshot s).adjacency b.node
            config.weights = .ok c ∧
        Analysis.betweenness .live s = .ok r ∧
        r.RanksAll s b ∧
        Analysis.centrality config .live s = .ok r' ∧
        r'.RanksAll s c := by
  obtain ⟨b, hb⟩ :=
    exists_betweenness_live (α := ℚ) (Network.ofSnapshot s).adjacency
      (Network.ofSnapshot s).linkCount
  obtain ⟨c, hc⟩ := exists_centrality_live (Network.ofSnapshot s).adjacency
    b.node config.weights
  obtain ⟨r, hr, hranks⟩ := exists_betweenness hb
  obtain ⟨r', hr', hranks'⟩ := exists_centrality hb hc
  exact ⟨b, c, r, r', hb, hc, hr, hranks, hr', hranks'⟩

end LinkAnalysis
