import Mathlib

/-!
# Edges within a group of nodes

Between the nodes of a group there are at most as many edges as the group has
pairs.  If the edges join the whole group, a tree among them does so too, and
there are at least as many edges as the group has nodes but one.
-/

namespace SimpleGraph

variable {V : Type*} {G H : SimpleGraph V} {group : Set V}

/-- The edges with both ends in a group. -/
def edgesWithin (G : SimpleGraph V) (group : Set V) : Set (Sym2 V) :=
  {e ∈ G.edgeSet | ∀ v ∈ e, v ∈ group}

/-- The neighbours that a node has in a group. -/
def neighborsWithin (G : SimpleGraph V) (group : Set V) (v : V) : Set V :=
  {w ∈ group | G.Adj v w}

theorem edgesWithin_mono (hsub : H ≤ G) :
    H.edgesWithin group ⊆ G.edgesWithin group :=
  fun _ he => ⟨edgeSet_mono hsub he.1, he.2⟩

theorem edgesWithin_eq_image :
    G.edgesWithin group = (Function.Embedding.subtype (· ∈ group)).sym2Map ''
      (G.induce group).edgeSet := by
  ext e
  induction e using Sym2.ind with
  | _ u v =>
    constructor
    · rintro ⟨hadj, hgroup⟩
      exact ⟨s(⟨u, hgroup u (Sym2.mem_mk_left u v)⟩,
          ⟨v, hgroup v (Sym2.mem_mk_right u v)⟩), hadj, rfl⟩
    · rintro ⟨e, he, heq⟩
      induction e using Sym2.ind with
      | _ x y =>
        rw [← heq]
        refine ⟨he, fun w hw => ?_⟩
        rcases Sym2.mem_iff.mp hw with rfl | rfl
        · exact x.2
        · exact y.2

theorem ncard_edgesWithin :
    (G.edgesWithin group).ncard = Nat.card (G.induce group).edgeSet := by
  rw [edgesWithin_eq_image, Set.ncard_image_of_injective _
    (Function.Embedding.injective _), Nat.card_coe_set_eq]

theorem ncard_edgesWithin_le [Finite V] :
    (G.edgesWithin group).ncard ≤ group.ncard.choose 2 := by
  classical
  have := Fintype.ofFinite group
  have hle := (G.induce group).card_edgeFinset_le_card_choose_two
  rwa [edgeFinset_card, ← Nat.card_eq_fintype_card, ← Nat.card_eq_fintype_card,
    ← ncard_edgesWithin, Nat.card_coe_set_eq] at hle

/-- A connected group has a spanning tree. -/
theorem Connected.ncard_le_ncard_edgesWithin
    (hconnected : (G.induce group).Connected) :
    group.ncard ≤ (G.edgesWithin group).ncard + 1 := by
  rw [ncard_edgesWithin, ← Nat.card_coe_set_eq]
  exact hconnected.card_vert_le_card_edgeSet_add_one

/-- A component of some of the edges is joined by all of them. -/
theorem ConnectedComponent.ncard_le_ncard_edgesWithin
    [Finite V]
    (hsub : H ≤ G)
    (c : H.ConnectedComponent) :
    c.supp.ncard ≤ (G.edgesWithin c.supp).ncard + 1 :=
  (Connected.ncard_le_ncard_edgesWithin c.connected_toSimpleGraph).trans
    (Nat.add_le_add_right (Set.ncard_le_ncard (edgesWithin_mono hsub)) 1)

/-- The edges of a member are told from one another by their other ends. -/
theorem ncard_edgesWithin_mem {v : V} (hv : v ∈ group) :
    {e ∈ G.edgesWithin group | v ∈ e}.ncard =
      (G.neighborsWithin group v).ncard := by
  have himage : {e ∈ G.edgesWithin group | v ∈ e} =
      (fun w => s(v, w)) '' G.neighborsWithin group v := by
    ext e
    constructor
    · rintro ⟨⟨hadj, hgroup⟩, w, rfl⟩
      exact ⟨w, ⟨hgroup w (Sym2.mem_mk_right v w), hadj⟩, rfl⟩
    · rintro ⟨w, ⟨hw, hadj⟩, rfl⟩
      refine ⟨⟨hadj, fun u hu => ?_⟩, Sym2.mem_mk_left v w⟩
      rcases Sym2.mem_iff.mp hu with rfl | rfl
      · exact hv
      · exact hw
  rw [himage, Set.ncard_image_of_injective _ fun _ _ => Sym2.congr_right.mp]

theorem ConnectedComponent.neighborsWithin_supp
    (c : G.ConnectedComponent) {v : V}
    (hv : v ∈ c.supp) :
    G.neighborsWithin c.supp v = G.neighborSet v := by
  ext w
  exact and_iff_right_of_imp fun hadj => c.mem_supp_of_adj_mem_supp hv hadj

end SimpleGraph
