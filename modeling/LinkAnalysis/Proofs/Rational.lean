import LinkAnalysis.Score
import Mathlib.Tactic

/-!
# Exact scores

Rational numbers are a carrier for scores: every operation is exact, and every
value is finite.  Of several values a fold finds the largest.
-/

namespace LinkAnalysis

namespace Score

instance instRat : Score ℚ where
  decidableLT := inferInstance
  decidableLE := inferInstance
  isFinite _ := true

@[simp] theorem zero_rat : (zero : ℚ) = 0 := Nat.cast_zero

@[simp] theorem one_rat : (one : ℚ) = 1 := Nat.cast_one

@[simp] theorem count_rat (n : Nat) : (count n : ℚ) = n := rfl

@[simp] theorem isFinite_rat (x : ℚ) : isFinite x = true := rfl

@[simp] theorem larger_rat (x y : ℚ) : larger x y = max x y := by
  unfold larger
  split
  case isTrue hlt => exact (max_eq_right hlt.le).symm
  case isFalse hge => exact (max_eq_left (not_lt.mp hge)).symm

theorem distance_rat (x y : ℚ) : distance x y = |x - y| := by
  unfold distance
  split
  case isTrue hlt => rw [abs_sub_comm, abs_of_pos (sub_pos.mpr hlt)]
  case isFalse hge => rw [abs_of_nonneg (sub_nonneg.mpr (not_lt.mp hge))]

theorem halfProduct_rat {a b : Nat} (hlt : a * b < wordSize) :
    (halfProduct a b : ℚ) = (a * b : ℕ) / 2 := by
  rw [halfProduct, Nat.mod_eq_of_lt hlt]
  rfl

end Score

/-- Numbers that fit half a word have a product that fits a word. -/
theorem mul_lt_wordSize
    {a b : Nat}
    (ha : a < 2 ^ 32)
    (hb : b < 2 ^ 32) :
    a * b < wordSize :=
  calc a * b < 2 ^ 32 * 2 ^ 32 := Nat.mul_lt_mul'' ha hb
    _ = wordSize := by decide

/-! ## The largest of several values -/

/-- A fold that keeps one of two values ends with one that it prefers to all the
others. -/
theorem foldl_preferred
    {β : Type*} {R : β → β → Prop} {keep : β → β → β}
    (hrefl : ∀ x, R x x)
    (htrans : ∀ x y z, R x y → R y z → R x z)
    (hone : ∀ x y, keep x y = x ∨ keep x y = y)
    (hboth : ∀ x y, R (keep x y) x ∧ R (keep x y) y)
    (x : β) (l : List β) :
    l.foldl keep x ∈ x :: l ∧ ∀ y ∈ x :: l, R (l.foldl keep x) y := by
  induction l generalizing x with
  | nil =>
      exact ⟨List.mem_singleton_self x,
        fun y hy => List.mem_singleton.mp hy ▸ hrefl x⟩
  | cons y l ih =>
      obtain ⟨hmem, hall⟩ := ih (keep x y)
      obtain ⟨hx, hy⟩ := hboth x y
      have hfirst := hall _ List.mem_cons_self
      rw [List.foldl_cons]
      refine ⟨?_, fun z hz => ?_⟩
      · rcases List.mem_cons.mp hmem with heq | hmem
        · rw [heq]
          rcases hone x y with hkeep | hkeep <;> simp [hkeep]
        · exact List.mem_cons_of_mem _ (List.mem_cons_of_mem _ hmem)
      · rw [List.mem_cons, List.mem_cons] at hz
        rcases hz with rfl | rfl | hz
        · exact htrans _ _ _ hfirst hx
        · exact htrans _ _ _ hfirst hy
        · exact hall z (List.mem_cons_of_mem _ hz)

theorem isGreatest_foldl_max
    {β : Type*} [LinearOrder β] (x : β) (l : List β) :
    IsGreatest {y | y ∈ x :: l} (l.foldl max x) :=
  foldl_preferred (R := fun x y => y ≤ x) le_refl
    (fun _ _ _ hxy hyz => hyz.trans hxy) max_choice
    (fun x y => ⟨le_max_left x y, le_max_right x y⟩) x l

end LinkAnalysis
