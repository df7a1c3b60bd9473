import LinkAnalysis.Route.Shortest
import Mathlib.Data.List.Lex
import Mathlib.Tactic

/-!
# The order of routes

Routes are in lexicographic order, or first by length and then in lexicographic
order.  Both orders are total and tell different routes apart, so a list of
routes is sorted in one way only.
-/

namespace LinkAnalysis

theorem cons_le_cons_iff {a b : Nat} {x y : List Nat} :
    a :: x ≤ b :: y ↔ a < b ∨ a = b ∧ x ≤ y := by
  rw [← not_lt, List.cons_lt_cons_iff, ← not_lt]
  by_cases hxy : y < x
  · simp only [hxy, and_true, not_true_eq_false, and_false, or_false]
    omega
  · simp only [hxy, and_false, or_false, not_false_eq_true, and_true]
    omega

theorem routeLe_iff {x y : List Nat} : routeLe x y = true ↔ x ≤ y := by
  induction x generalizing y with
  | nil =>
      have hle : [] ≤ y := not_lt.mp (List.not_lt_nil y)
      simp only [routeLe, hle]
  | cons a x ih =>
      cases y with
      | nil =>
          have hlt : ¬ (a :: x ≤ []) := not_le.mpr (List.nil_lt_cons a x)
          simp only [routeLe, hlt, Bool.false_eq_true]
      | cons b y => simp [routeLe, ih, cons_le_cons_iff]

theorem shorterLe_iff {x y : List Nat} :
    shorterLe x y = true ↔
      x.length < y.length ∨ x.length = y.length ∧ x ≤ y := by
  simp [shorterLe, routeLe_iff]

theorem shorterLe_antisymm
    {x y : List Nat}
    (hxy : shorterLe x y = true)
    (hyx : shorterLe y x = true) :
    x = y := by
  rw [shorterLe_iff] at hxy hyx
  rcases hxy with hlt | ⟨hlength, hle⟩
  · omega
  · rcases hyx with hlt | ⟨-, hge⟩
    · omega
    · exact le_antisymm hle hge

theorem routeLe_mergeSort_pairwise (routes : List (List Nat)) :
    (routes.mergeSort routeLe).Pairwise fun x y => x ≤ y := by
  have hsorted :
      (routes.mergeSort routeLe).Pairwise fun x y => routeLe x y = true :=
    List.pairwise_mergeSort
      (fun x y z hxy hyz => by
        rw [routeLe_iff] at *
        exact hxy.trans hyz)
      (fun x y => by
        rw [Bool.or_eq_true, routeLe_iff, routeLe_iff]
        exact le_total x y) routes
  exact hsorted.imp routeLe_iff.mp

/-- Sorting different routes leaves no ties. -/
theorem routeLe_mergeSort_strict
    {routes : List (List Nat)}
    (hnodup : routes.Nodup) :
    (routes.mergeSort routeLe).Pairwise (· < ·) := by
  have hnodup' : (routes.mergeSort routeLe).Nodup :=
    (List.mergeSort_perm routes routeLe).nodup_iff.mpr hnodup
  exact ((routeLe_mergeSort_pairwise routes).and hnodup').imp fun hboth =>
    lt_of_le_of_ne hboth.1 hboth.2

theorem shorterLe_mergeSort_pairwise (routes : List (List Nat)) :
    (routes.mergeSort shorterLe).Pairwise fun x y => shorterLe x y = true :=
  List.pairwise_mergeSort
    (fun x y z hxy hyz => by
      rw [shorterLe_iff] at *
      rcases hxy with hxy | ⟨hxy, hle⟩
      · exact Or.inl (by omega)
      · rcases hyz with hyz | ⟨hyz, hle'⟩
        · exact Or.inl (by omega)
        · exact Or.inr ⟨by omega, hle.trans hle'⟩)
    (fun x y => by
      rw [Bool.or_eq_true, shorterLe_iff, shorterLe_iff]
      rcases lt_trichotomy x.length y.length with hlt | hlength | hlt
      · exact Or.inl (Or.inl hlt)
      · exact (le_total x y).imp (fun hle => Or.inr ⟨hlength, hle⟩) fun hle =>
          Or.inr ⟨hlength.symm, hle⟩
      · exact Or.inr (Or.inl hlt)) routes

theorem shorterLe_mergeSort_strict
    {routes : List (List Nat)}
    (hnodup : routes.Nodup) :
    (routes.mergeSort shorterLe).Pairwise fun x y =>
      x.length < y.length ∨ x.length = y.length ∧ x < y := by
  have hnodup' : (routes.mergeSort shorterLe).Nodup :=
    (List.mergeSort_perm routes shorterLe).nodup_iff.mpr hnodup
  refine ((shorterLe_mergeSort_pairwise routes).and hnodup').imp
    fun {x y} hboth => ?_
  obtain ⟨hle, hne⟩ := hboth
  exact (shorterLe_iff.mp hle).imp_right fun ⟨hlength, hle⟩ =>
    ⟨hlength, lt_of_le_of_ne hle hne⟩

/-- A list that is sorted already is what sorting its routes gives. -/
theorem mergeSort_shorterLe_eq
    {routes sorted : List (List Nat)}
    (hperm : sorted.Perm routes)
    (hsorted : sorted.Pairwise fun x y => shorterLe x y = true) :
    routes.mergeSort shorterLe = sorted :=
  List.Perm.eq_of_pairwise (fun _ _ _ _ hxy hyx => shorterLe_antisymm hxy hyx)
    (shorterLe_mergeSort_pairwise routes) hsorted
    ((List.mergeSort_perm routes shorterLe).trans hperm.symm)

end LinkAnalysis
