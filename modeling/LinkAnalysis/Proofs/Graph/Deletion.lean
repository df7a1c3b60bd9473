import Mathlib.Combinatorics.SimpleGraph.Connectivity.Connected
import Mathlib.SetTheory.Cardinal.Finite
import Mathlib.Tactic

/-!
# Deleting an edge

A walk that uses an edge reaches one end of it before and leaves from the other
end after.  So an edge that is no bridge can be deleted without separating
nodes, and a bridge splits one component into two.
-/

namespace SimpleGraph

variable {V : Type*} {G : SimpleGraph V} {a b : V}

/-- What is joined with an edge is joined without it, up to one step over the
edge. -/
theorem reachable_iff_deleteEdges (hadjacent : G.Adj a b) {x y : V} :
    G.Reachable x y ↔ (G.deleteEdges {s(a, b)}).Reachable x y ∨
      (G.deleteEdges {s(a, b)}).Reachable x a ∧
        (G.deleteEdges {s(a, b)}).Reachable b y ∨
      (G.deleteEdges {s(a, b)}).Reachable x b ∧
        (G.deleteEdges {s(a, b)}).Reachable a y := by
  have hmono :
      ∀ {u v : V}, (G.deleteEdges {s(a, b)}).Reachable u v → G.Reachable u v :=
    fun hreach => hreach.mono (deleteEdges_le _)
  constructor
  · rintro ⟨p⟩
    induction p with
    | nil => exact Or.inl (Reachable.refl _)
    | @cons x u y hadj p ih =>
        by_cases hedge : s(x, u) = s(a, b)
        · rcases Sym2.eq_iff.mp hedge with ⟨rfl, rfl⟩ | ⟨rfl, rfl⟩
          · rcases ih with ih | ⟨-, ih⟩ | ⟨-, ih⟩
            · exact Or.inr (Or.inl ⟨Reachable.refl _, ih⟩)
            · exact Or.inr (Or.inl ⟨Reachable.refl _, ih⟩)
            · exact Or.inl ih
          · rcases ih with ih | ⟨-, ih⟩ | ⟨-, ih⟩
            · exact Or.inr (Or.inr ⟨Reachable.refl _, ih⟩)
            · exact Or.inl ih
            · exact Or.inr (Or.inr ⟨Reachable.refl _, ih⟩)
        · have hkept : (G.deleteEdges {s(a, b)}).Reachable x u :=
            (deleteEdges_adj.mpr ⟨hadj, hedge⟩ :
              (G.deleteEdges {s(a, b)}).Adj x u).reachable
          rcases ih with ih | ⟨ih, ih'⟩ | ⟨ih, ih'⟩
          · exact Or.inl (hkept.trans ih)
          · exact Or.inr (Or.inl ⟨hkept.trans ih, ih'⟩)
          · exact Or.inr (Or.inr ⟨hkept.trans ih, ih'⟩)
  · rintro (hxy | ⟨hx, hy⟩ | ⟨hx, hy⟩)
    · exact hmono hxy
    · exact (hmono hx).trans (hadjacent.reachable.trans (hmono hy))
    · exact (hmono hx).trans (hadjacent.symm.reachable.trans (hmono hy))

theorem reachable_deleteEdges_iff_of_not_isBridge
    (hadj : G.Adj a b)
    (hbridge : ¬ G.IsBridge s(a, b))
    {x y : V} :
    (G.deleteEdges {s(a, b)}).Reachable x y ↔ G.Reachable x y := by
  have hab : (G.deleteEdges {s(a, b)}).Reachable a b := by
    rwa [isBridge_iff, not_not] at hbridge
  rw [reachable_iff_deleteEdges hadj]
  constructor
  · exact Or.inl
  · rintro (hxy | ⟨hx, hy⟩ | ⟨hx, hy⟩)
    · exact hxy
    · exact hx.trans (hab.trans hy)
    · exact hx.trans (hab.symm.trans hy)

theorem card_connectedComponent_congr
    {H : SimpleGraph V}
    (hreach : ∀ x y, H.Reachable x y ↔ G.Reachable x y) :
    Nat.card H.ConnectedComponent = Nat.card G.ConnectedComponent := by
  have hsame : H.Reachable = G.Reachable := by
    funext x y
    exact propext (hreach x y)
  exact congrArg (fun r : V → V → Prop => Nat.card (Quot r)) hsame

theorem card_connectedComponent_of_not_isBridge
    (hadj : G.Adj a b)
    (hbridge : ¬ G.IsBridge s(a, b)) :
    Nat.card (G.deleteEdges {s(a, b)}).ConnectedComponent =
      Nat.card G.ConnectedComponent :=
  card_connectedComponent_congr fun _ _ =>
    reachable_deleteEdges_iff_of_not_isBridge hadj hbridge

/-! ## Splitting a component -/

section Split

open scoped Classical

variable (G a b) in
/-- The component in which a component lies once the edge is back; the component
of `b` is left out. -/
noncomputable def outerComponent
    (c : (G.deleteEdges {s(a, b)}).ConnectedComponent) :
    Option G.ConnectedComponent :=
  if c = (G.deleteEdges {s(a, b)}).connectedComponentMk b then none
  else some (c.map (Hom.ofLE (deleteEdges_le _)))

theorem outerComponent_mk (x : V) :
    outerComponent G a b ((G.deleteEdges {s(a, b)}).connectedComponentMk x) =
      if (G.deleteEdges {s(a, b)}).Reachable x b then none
      else some (G.connectedComponentMk x) := by
  unfold outerComponent
  exact if_congr ConnectedComponent.eq rfl rfl

theorem outerComponent_injective (hadj : G.Adj a b) :
    Function.Injective (outerComponent G a b) := by
  intro c c' heq
  induction c using ConnectedComponent.ind with
  | _ x =>
  induction c' using ConnectedComponent.ind with
  | _ y =>
  rw [outerComponent_mk, outerComponent_mk] at heq
  rw [ConnectedComponent.eq]
  by_cases hx : (G.deleteEdges {s(a, b)}).Reachable x b
  · by_cases hy : (G.deleteEdges {s(a, b)}).Reachable y b
    · exact hx.trans hy.symm
    · simp [hx, hy] at heq
  · by_cases hy : (G.deleteEdges {s(a, b)}).Reachable y b
    · simp [hx, hy] at heq
    · rw [if_neg hx, if_neg hy, Option.some.injEq, ConnectedComponent.eq,
        reachable_iff_deleteEdges hadj] at heq
      rcases heq with hxy | ⟨-, hby⟩ | ⟨hxb, -⟩
      · exact hxy
      · exact absurd hby.symm hy
      · exact absurd hxb hx

theorem outerComponent_surjective
    (hadj : G.Adj a b)
    (hbridge : G.IsBridge s(a, b)) :
    Function.Surjective (outerComponent G a b) := by
  intro c
  cases c with
  | none =>
      refine ⟨(G.deleteEdges {s(a, b)}).connectedComponentMk b, ?_⟩
      rw [outerComponent_mk, if_pos (Reachable.refl b)]
  | some c =>
      induction c using ConnectedComponent.ind with
      | _ x =>
      by_cases hx : (G.deleteEdges {s(a, b)}).Reachable x b
      · refine ⟨(G.deleteEdges {s(a, b)}).connectedComponentMk a, ?_⟩
        rw [outerComponent_mk, if_neg (isBridge_iff.mp hbridge),
          Option.some.injEq, ConnectedComponent.eq]
        exact hadj.reachable.trans (hx.mono (deleteEdges_le _)).symm
      · exact ⟨(G.deleteEdges {s(a, b)}).connectedComponentMk x,
          by rw [outerComponent_mk, if_neg hx]⟩

/-- Deleting a bridge splits one component into two. -/
theorem card_connectedComponent_of_isBridge
    [Finite V]
    (hadj : G.Adj a b)
    (hbridge : G.IsBridge s(a, b)) :
    Nat.card (G.deleteEdges {s(a, b)}).ConnectedComponent =
      Nat.card G.ConnectedComponent + 1 := by
  rw [Nat.card_eq_of_bijective (outerComponent G a b)
    ⟨outerComponent_injective hadj, outerComponent_surjective hadj hbridge⟩,
    Finite.card_option]

end Split

end SimpleGraph
