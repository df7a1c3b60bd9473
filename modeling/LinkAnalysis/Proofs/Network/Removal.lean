import LinkAnalysis.Proofs.Graph.Deletion
import LinkAnalysis.Proofs.Network.Canonical
import LinkAnalysis.Proofs.Network.Components

/-!
# Removing links

The graph that is left after some links of a network were removed.  Removing one
more link adds at most one component; it adds one exactly if the link was a
bridge, and otherwise the components stay what they were.
-/

namespace LinkAnalysis

namespace Network

def linksWithout (net : Network) (removed : List Nat) : List Nat :=
  (List.range net.linkCount).filter fun e => decide (e ∉ removed)

def graphWithout (net : Network) (removed : List Nat) :
    SimpleGraph (Fin net.size) :=
  net.graphOf (net.linksWithout removed)

/-- The number of connected components of the links that are left. -/
noncomputable def componentCountWithout (net : Network)
    (removed : List Nat) : Nat :=
  Nat.card (net.graphWithout removed).ConnectedComponent

def componentsWithout (net : Network) (removed : List Nat) : List (List Nat) :=
  components (net.adjacencyOf (net.linksWithout removed))

variable {net : Network} {removed : List Nat} {e : Nat}

theorem mem_linksWithout :
    e ∈ net.linksWithout removed ↔ e < net.linkCount ∧ e ∉ removed := by
  simp [linksWithout]

theorem linksWithout_nil : net.linksWithout [] = List.range net.linkCount := by
  simp [linksWithout]

theorem wholeGraph_eq (net : Network) :
    net.wholeGraph = net.graphWithout [] := by
  rw [wholeGraph, graphWithout, linksWithout_nil]

theorem linksWithout_cons :
    net.linksWithout (e :: removed) =
      (net.linksWithout removed).filter (· != e) := by
  rw [linksWithout, linksWithout, List.filter_filter]
  apply List.filter_congr
  intro position _
  by_cases heq : position = e <;> simp [heq]

theorem linksWithout_congr
    {removed' : List Nat}
    (hsame : ∀ e, e ∈ removed ↔ e ∈ removed') :
    net.linksWithout removed = net.linksWithout removed' := by
  simp only [linksWithout, hsame]

theorem graphWithout_congr
    {removed' : List Nat}
    (hsame : ∀ e, e ∈ removed ↔ e ∈ removed') :
    net.graphWithout removed = net.graphWithout removed' := by
  rw [graphWithout, linksWithout_congr hsame, graphWithout]

theorem componentCountWithout_congr
    {removed' : List Nat}
    (hsame : ∀ e, e ∈ removed ↔ e ∈ removed') :
    net.componentCountWithout removed = net.componentCountWithout removed' := by
  rw [componentCountWithout, graphWithout_congr hsame, componentCountWithout]

theorem componentsWithout_congr
    {removed' : List Nat}
    (hsame : ∀ e, e ∈ removed ↔ e ∈ removed') :
    net.componentsWithout removed = net.componentsWithout removed' := by
  rw [componentsWithout, linksWithout_congr hsame, componentsWithout]

theorem activeLinks_linksWithout (net : Network) (removed : List Nat) :
    ActiveLinks net.ends (net.linksWithout removed) :=
  activeLinks_of_nodup (List.nodup_range.filter _) fun _ hmem =>
    (mem_linksWithout.mp hmem).1

theorem length_removed_add_length_linksWithout
    (hnodup : removed.Nodup)
    (hlt : ∀ e ∈ removed, e < net.linkCount) :
    removed.length + (net.linksWithout removed).length = net.linkCount := by
  have hperm : (removed ++ net.linksWithout removed).Perm
      (List.range net.linkCount) := by
    refine (List.perm_ext_iff_of_nodup ?_ List.nodup_range).mpr fun e => ?_
    · refine List.nodup_append.mpr ⟨hnodup, List.nodup_range.filter _,
        fun a ha b hb heq => ?_⟩
      exact (mem_linksWithout.mp hb).2 (heq ▸ ha)
    · rw [List.mem_append, mem_linksWithout, List.mem_range]
      by_cases he : e ∈ removed
      · simp [he, hlt e he]
      · simp [he]
  simpa using hperm.length_eq

section Simple

variable (hnet : SimpleEnds net.size net.ends)

include hnet

theorem length_componentsWithout (removed : List Nat) :
    (net.componentsWithout removed).length =
      net.componentCountWithout removed :=
  length_components_ofEnds (hnet.inRange (activeLinks_linksWithout net removed))

theorem exists_adj_of_mem_linksWithout (he : e ∈ net.linksWithout removed) :
    ∃ a b : Fin net.size,
      net.ends[e]? = some (a.val, b.val) ∧
      (net.graphWithout removed).Adj a b := by
  obtain ⟨a, b, hget, ha, hb⟩ :=
    hnet.inRange (activeLinks_linksWithout net removed) e he
  exact ⟨⟨a, ha⟩, ⟨b, hb⟩, hget,
    linkGraph_adj_of_mem he hget (hnet.low_lt_high hget).ne ha hb⟩

theorem graphWithout_cons
    {a b : Fin net.size}
    (hget : net.ends[e]? = some (a.val, b.val)) :
    net.graphWithout (e :: removed) =
      (net.graphWithout removed).deleteEdges {s(a, b)} := by
  rw [graphWithout, linksWithout_cons]
  exact linkGraph_filter_ne hnet hget

theorem componentCountWithout_cons_of_isBridge
    {a b : Fin net.size}
    (hget : net.ends[e]? = some (a.val, b.val))
    (hadj : (net.graphWithout removed).Adj a b)
    (hbridge : (net.graphWithout removed).IsBridge s(a, b)) :
    net.componentCountWithout (e :: removed) =
      net.componentCountWithout removed + 1 := by
  rw [componentCountWithout, graphWithout_cons hnet hget]
  exact SimpleGraph.card_connectedComponent_of_isBridge hadj hbridge

theorem componentCountWithout_cons_of_not_isBridge
    {a b : Fin net.size}
    (hget : net.ends[e]? = some (a.val, b.val))
    (hadj : (net.graphWithout removed).Adj a b)
    (hbridge : ¬ (net.graphWithout removed).IsBridge s(a, b)) :
    net.componentCountWithout (e :: removed) =
      net.componentCountWithout removed := by
  rw [componentCountWithout, graphWithout_cons hnet hget]
  exact SimpleGraph.card_connectedComponent_of_not_isBridge hadj hbridge

/-- Removing a link adds a component exactly if the link is a bridge. -/
theorem componentCountWithout_cons_eq_iff
    {a b : Fin net.size}
    (hget : net.ends[e]? = some (a.val, b.val))
    (hadj : (net.graphWithout removed).Adj a b) :
    net.componentCountWithout (e :: removed) =
        net.componentCountWithout removed + 1 ↔
      (net.graphWithout removed).IsBridge s(a, b) := by
  refine ⟨fun hcount => ?_,
    componentCountWithout_cons_of_isBridge hnet hget hadj⟩
  by_contra hbridge
  have := componentCountWithout_cons_of_not_isBridge hnet hget hadj hbridge
  omega

/-- Removing a link adds at most one component. -/
theorem componentCountWithout_cons (he : e ∈ net.linksWithout removed) :
    net.componentCountWithout (e :: removed) =
        net.componentCountWithout removed ∨
      net.componentCountWithout (e :: removed) =
        net.componentCountWithout removed + 1 := by
  obtain ⟨a, b, hget, hadj⟩ := exists_adj_of_mem_linksWithout hnet he
  by_cases hbridge : (net.graphWithout removed).IsBridge s(a, b)
  · exact Or.inr (componentCountWithout_cons_of_isBridge hnet hget hadj hbridge)
  · exact Or.inl
      (componentCountWithout_cons_of_not_isBridge hnet hget hadj hbridge)

/-- Components that do not become more stay what they were. -/
theorem componentsWithout_cons_of_count_eq
    (he : e ∈ net.linksWithout removed)
    (hcount : net.componentCountWithout (e :: removed) =
      net.componentCountWithout removed) :
    net.componentsWithout (e :: removed) = net.componentsWithout removed := by
  obtain ⟨a, b, hget, hadj⟩ := exists_adj_of_mem_linksWithout hnet he
  have hbridge : ¬ (net.graphWithout removed).IsBridge s(a, b) := by
    intro hbridge
    have := componentCountWithout_cons_of_isBridge hnet hget hadj hbridge
    omega
  refine components_ofEnds_congr (hnet.inRange (activeLinks_linksWithout net _))
    (hnet.inRange (activeLinks_linksWithout net _)) fun v w => ?_
  change (net.graphWithout (e :: removed)).Reachable v w ↔
    (net.graphWithout removed).Reachable v w
  rw [graphWithout_cons hnet hget]
  exact SimpleGraph.reachable_deleteEdges_iff_of_not_isBridge hadj hbridge

end Simple

/-- The more links are removed, the fewer edges are left. -/
theorem graphWithout_anti {removed' : List Nat} (hsubset : removed ⊆ removed') :
    net.graphWithout removed' ≤ net.graphWithout removed := by
  refine linkGraph_mono fun e he => ?_
  rw [mem_linksWithout] at he ⊢
  exact ⟨he.1, fun hmem => he.2 (hsubset hmem)⟩

theorem componentCountWithout_mono
    {removed' : List Nat}
    (hsubset : removed ⊆ removed') :
    net.componentCountWithout removed ≤ net.componentCountWithout removed' :=
  SimpleGraph.ConnectedComponent.card_le_card_of_le (graphWithout_anti hsubset)

theorem componentCountWithout_nil_le (net : Network) (removed : List Nat) :
    net.componentCountWithout [] ≤ net.componentCountWithout removed :=
  componentCountWithout_mono (List.nil_subset removed)

theorem componentCountWithout_le_size (net : Network) (removed : List Nat) :
    net.componentCountWithout removed ≤ net.size := by
  have hle :=
    Nat.card_le_card_of_surjective
      (net.graphWithout removed).connectedComponentMk Quot.mk_surjective
  rwa [Nat.card_fin] at hle

end Network

end LinkAnalysis
