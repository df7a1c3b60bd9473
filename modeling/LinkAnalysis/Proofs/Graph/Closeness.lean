import Mathlib

/-!
# Closeness

The closeness of a node is the reciprocal of its mean distance to the other
nodes that it reaches.  It is positive wherever there is a neighbour, and an
isolated node has none.
-/

namespace SimpleGraph

/-- How many other nodes a node reaches. -/
noncomputable def reachCount {V : Type*} (G : SimpleGraph V) (v : V) : ℕ :=
  {w | w ≠ v ∧ G.Reachable v w}.ncard

open scoped Classical in
/-- The sum of the distances of all nodes that a node reaches. -/
noncomputable def totalDistance {V : Type*} [Fintype V] (G : SimpleGraph V)
    (v : V) : ℕ :=
  ∑ w with G.Reachable v w, G.dist v w

/-- The reciprocal of the mean distance of what a node reaches; zero where it
reaches nothing. -/
noncomputable def closeness {V : Type*} [Fintype V] (G : SimpleGraph V)
    (v : V) : ℚ :=
  G.reachCount v / G.totalDistance v

variable {V : Type*} {G : SimpleGraph V} {v : V}

theorem IsIsolated.eq_of_reachable
    {w : V}
    (hisolated : G.IsIsolated v)
    (hreach : G.Reachable v w) :
    v = w := by
  obtain ⟨p⟩ := hreach
  cases p with
  | nil => rfl
  | cons hadj _ => exact absurd hadj (hisolated _)

variable [Fintype V]

theorem totalDistance_eq_zero_iff : G.totalDistance v = 0 ↔ G.IsIsolated v := by
  rw [totalDistance, Finset.sum_eq_zero_iff]
  constructor
  · intro hzero w hadj
    have hdist := hzero w (by simpa using hadj.reachable)
    rw [hadj.reachable.dist_eq_zero_iff] at hdist
    exact hadj.ne hdist
  · intro hisolated w hw
    have hreach : G.Reachable v w := by simpa using hw
    rw [hisolated.eq_of_reachable hreach, dist_self]

theorem reachCount_pos (hlinked : ¬ G.IsIsolated v) : 0 < G.reachCount v := by
  obtain ⟨w, hadj⟩ := exists_adj_iff_not_isIsolated.mpr hlinked
  exact (Set.ncard_pos (Set.toFinite _)).mpr ⟨w, hadj.ne', hadj.reachable⟩

theorem closeness_nonneg (v : V) : 0 ≤ G.closeness v := by
  unfold closeness
  positivity

theorem closeness_of_isIsolated (hisolated : G.IsIsolated v) :
    G.closeness v = 0 := by
  rw [closeness, totalDistance_eq_zero_iff.mpr hisolated,
    Nat.cast_zero, div_zero]

theorem closeness_pos (hlinked : ¬ G.IsIsolated v) : 0 < G.closeness v := by
  have hreach := reachCount_pos hlinked
  have htotal := Nat.pos_of_ne_zero (mt totalDistance_eq_zero_iff.mp hlinked)
  unfold closeness
  positivity

end SimpleGraph
