import LinkAnalysis.Proofs.Graph.Deletion
import Mathlib

/-!
# Counting edges

Every edge is seen from two nodes, and there is at most one for every pair of
nodes.  An edge joins at most two components into one, so there are at least as
many components and edges as nodes; there are no more of them exactly if every
edge joins two, which is to say that the graph has no cycle.
-/

namespace SimpleGraph

variable {V : Type*} {G : SimpleGraph V}

theorem sum_ncard_neighborSet {n : Nat} (G : SimpleGraph (Fin n)) :
    ∑ v, (G.neighborSet v).ncard = 2 * G.edgeSet.ncard := by
  classical
  rw [Set.ncard_eq_toFinset_card', ← edgeFinset,
    ← sum_degrees_eq_twice_card_edges]
  exact Finset.sum_congr rfl fun v _ => Set.ncard_eq_toFinset_card' _

theorem ncard_edgeSet_le [Finite V] (G : SimpleGraph V) :
    G.edgeSet.ncard ≤ (Nat.card V).choose 2 := by
  classical
  have := Fintype.ofFinite V
  rw [Set.ncard_eq_toFinset_card', Nat.card_eq_fintype_card]
  exact G.card_edgeFinset_le_card_choose_two

/-- There is an edge for every pair exactly if all nodes are joined with each
other. -/
theorem ncard_edgeSet_eq_choose_iff [Finite V] :
    G.edgeSet.ncard = (Nat.card V).choose 2 ↔ ∀ v w, v ≠ w → G.Adj v w := by
  classical
  have := Fintype.ofFinite V
  have htop : (⊤ : SimpleGraph V).edgeSet.ncard = (Nat.card V).choose 2 := by
    rw [Set.ncard_eq_toFinset_card', Nat.card_eq_fintype_card]
    exact card_edgeFinset_top_eq_card_choose_two
  have hsubset : G.edgeSet ⊆ (⊤ : SimpleGraph V).edgeSet := edgeSet_mono le_top
  calc G.edgeSet.ncard = (Nat.card V).choose 2
      ↔ G.edgeSet = (⊤ : SimpleGraph V).edgeSet :=
        ⟨fun hcard => Set.eq_of_subset_of_ncard_le hsubset
          (htop.trans hcard.symm).le, fun hedges => hedges ▸ htop⟩
    _ ↔ G = ⊤ := edgeSet_inj
    _ ↔ ∀ v w, v ≠ w → G.Adj v w := eq_top_iff_forall_ne_adj

/-! ## Forests -/

theorem card_connectedComponent_bot :
    Nat.card (⊥ : SimpleGraph V).ConnectedComponent = Nat.card V :=
  (Nat.card_eq_of_bijective (⊥ : SimpleGraph V).connectedComponentMk
    ⟨fun _ _ hcomponent => reachable_bot.mp
      (ConnectedComponent.exact hcomponent), Quot.mk_surjective⟩).symm

theorem ncard_edgeSet_deleteEdges
    [Finite V] {a b : V}
    (hadj : G.Adj a b) :
    (G.deleteEdges {s(a, b)}).edgeSet.ncard + 1 = G.edgeSet.ncard := by
  rw [edgeSet_deleteEdges]
  exact Set.ncard_sdiff_singleton_add_one hadj

theorem isAcyclic_deleteEdges_iff
    {a b : V}
    (hadj : G.Adj a b)
    (hbridge : G.IsBridge s(a, b)) :
    (G.deleteEdges {s(a, b)}).IsAcyclic ↔ G.IsAcyclic := by
  have hback : G.deleteEdges {s(a, b)} ⊔ edge a b = G :=
    sdiff_sup_cancel ((edge_le_iff G).mpr (Or.inr hadj))
  rw [← isAcyclic_add_edge_iff_of_not_reachable a b (isBridge_iff.mp hbridge),
    hback]

/-- There are as many components and edges as nodes, or more if there is a
cycle, since an edge on a cycle joins nothing. -/
theorem card_le_and_card_eq_iff [Finite V] (G : SimpleGraph V) :
    Nat.card V ≤ Nat.card G.ConnectedComponent + G.edgeSet.ncard ∧
      (Nat.card V = Nat.card G.ConnectedComponent + G.edgeSet.ncard ↔
        G.IsAcyclic) := by
  induction hcount : G.edgeSet.ncard generalizing G with
  | zero =>
      obtain rfl :=
        edgeSet_eq_empty.mp ((Set.ncard_eq_zero (Set.toFinite _)).mp hcount)
      simp [card_connectedComponent_bot]
  | succ k ih =>
      obtain ⟨e, he⟩ : G.edgeSet.Nonempty :=
        Set.nonempty_of_ncard_ne_zero (by omega)
      induction e using Sym2.ind with
      | _ a b =>
      have hadj : G.Adj a b := he
      have hless := ncard_edgeSet_deleteEdges hadj
      obtain ⟨hle, heq⟩ := ih (G.deleteEdges {s(a, b)}) (by omega)
      by_cases hbridge : G.IsBridge s(a, b)
      · have hcard := card_connectedComponent_of_isBridge hadj hbridge
        rw [isAcyclic_deleteEdges_iff hadj hbridge] at heq
        exact ⟨by omega, by rw [← heq]; omega⟩
      · have hcard := card_connectedComponent_of_not_isBridge hadj hbridge
        have hcycle : ¬ G.IsAcyclic :=
          fun hacyclic => hbridge (isAcyclic_iff_forall_isBridge.mp hacyclic he)
        exact ⟨by omega, iff_of_false (by omega) hcycle⟩

end SimpleGraph
