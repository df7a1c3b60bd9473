import LinkAnalysis.Centrality.Composite
import LinkAnalysis.Config.Basic
import LinkAnalysis.Proofs.Rational
import Mathlib

/-!
# Exact scores that need not be finite

Machine numbers are not all finite: there are two infinities, and undefined
operations have a result that compares with nothing.  The carrier of this module
has these as well, and its finite values are exact.  Whatever a score is, the
part of it that is taken into a weighted sum is finite and between zero and one.
-/

namespace LinkAnalysis

/-- A rational number, an infinity, or the result of an undefined operation.
There is one zero, and it counts as positive. -/
inductive Extended where
  | finite (value : ℚ)
  | infinite (negative : Bool)
  | undefined
  deriving DecidableEq

namespace Extended

def neg : Extended → Extended
  | finite x => finite (-x)
  | infinite s => infinite !s
  | undefined => undefined

def add : Extended → Extended → Extended
  | finite x, finite y => finite (x + y)
  | finite _, infinite t => infinite t
  | infinite s, finite _ => infinite s
  | infinite s, infinite t => if s = t then infinite s else undefined
  | _, _ => undefined

/-- The product of an infinity and a number.  Dividing by zero is multiplying by
an infinity. -/
def scale (s : Bool) (x : ℚ) : Extended :=
  if x = 0 then undefined else infinite (s ^^ decide (x < 0))

def mul : Extended → Extended → Extended
  | finite x, finite y => finite (x * y)
  | finite x, infinite t => scale t x
  | infinite s, finite y => scale s y
  | infinite s, infinite t => infinite (s ^^ t)
  | _, _ => undefined

def div : Extended → Extended → Extended
  | finite x, finite y => if y = 0 then scale false x else finite (x / y)
  | finite _, infinite _ => finite 0
  | infinite s, finite y => infinite (s ^^ decide (y < 0))
  | _, _ => undefined

def below : Extended → Extended → Bool
  | finite x, finite y => decide (x < y)
  | finite _, infinite t => !t
  | infinite s, finite _ => s
  | infinite s, infinite t => s && !t
  | _, _ => false

def belowOrEqual (x y : Extended) : Bool :=
  below x y || decide (x = y ∧ x ≠ undefined)

instance instScore : Score Extended where
  add := add
  sub x y := add x (neg y)
  mul := mul
  div := div
  natCast n := finite n
  lt x y := below x y = true
  le x y := belowOrEqual x y = true
  decidableLT x y := inferInstanceAs (Decidable (below x y = true))
  decidableLE x y := inferInstanceAs (Decidable (belowOrEqual x y = true))
  isFinite
    | finite _ => true
    | _ => false

/-! ## Finite values -/

section Finite

variable (x y : ℚ) (n : Nat)

@[simp] theorem finite_add : finite x + finite y = finite (x + y) := rfl

@[simp] theorem finite_mul : finite x * finite y = finite (x * y) := rfl

theorem finite_div {y : ℚ} (hy : y ≠ 0) :
    finite x / finite y = finite (x / y) :=
  if_neg hy

@[simp] theorem finite_lt_finite : finite x < finite y ↔ x < y :=
  decide_eq_true_iff

@[simp] theorem finite_le_finite : finite x ≤ finite y ↔ x ≤ y := by
  change (decide (x < y) ||
    decide (finite x = finite y ∧ finite x ≠ undefined)) = true ↔ x ≤ y
  simp [le_iff_lt_or_eq]

@[simp] theorem count_eq : (Score.count n : Extended) = finite n := rfl

@[simp] theorem zero_eq : (Score.zero : Extended) = finite 0 :=
  congrArg finite Nat.cast_zero

@[simp] theorem one_eq : (Score.one : Extended) = finite 1 :=
  congrArg finite Nat.cast_one

@[simp] theorem isFinite_finite : Score.isFinite (finite x) = true := rfl

@[simp] theorem larger_finite :
    Score.larger (finite x) (finite y) = finite (max x y) := by
  unfold Score.larger
  split
  case isTrue hlt => rw [max_eq_right ((finite_lt_finite x y).mp hlt).le]
  case isFalse hge =>
    rw [max_eq_left (not_lt.mp (mt (finite_lt_finite x y).mpr hge))]

theorem foldl_larger_finite (xs : List ℚ) :
    (xs.map finite).foldl Score.larger (finite x) =
      finite (xs.foldl max x) := by
  induction xs generalizing x with
  | nil => rfl
  | cons y xs ih =>
      rw [List.map_cons, List.foldl_cons, List.foldl_cons, larger_finite, ih]

end Finite

theorem isFinite_iff {x : Extended} :
    Score.isFinite x = true ↔ ∃ q, x = finite q := by
  cases x with
  | finite q => exact iff_of_true rfl ⟨q, rfl⟩
  | infinite s => exact iff_of_false Bool.false_ne_true nofun
  | undefined => exact iff_of_false Bool.false_ne_true nofun

/-! ## Weighted sums -/

/-- What a score contributes to a weighted sum: the nearest number between zero
and one, and nothing if it is not finite. -/
def share : Extended → ℚ
  | finite x => max 0 (min x 1)
  | _ => 0

theorem share_mem_Icc (x : Extended) : x.share ∈ Set.Icc 0 1 := by
  cases x with
  | finite x => exact ⟨le_max_left _ _, max_le zero_le_one (min_le_right _ _)⟩
  | infinite s => exact ⟨le_rfl, zero_le_one⟩
  | undefined => exact ⟨le_rfl, zero_le_one⟩

theorem share_finite {x : ℚ} (hx : x ∈ Set.Icc 0 1) : (finite x).share = x := by
  rw [share, min_eq_left hx.2, max_eq_right hx.1]

theorem unitValue_eq (x : Extended) : unitValue x = finite x.share := by
  cases x with
  | finite x =>
      rw [unitValue, if_pos (isFinite_finite x), Score.clampUnit, zero_eq,
        one_eq, share]
      simp only [finite_lt_finite]
      rcases lt_or_ge x 0 with hneg | hnonneg
      · rw [if_pos hneg, max_eq_left ((min_le_left x 1).trans hneg.le)]
      · rw [if_neg hnonneg.not_gt, max_eq_right (le_min hnonneg zero_le_one)]
        rcases lt_or_ge 1 x with hlarge | hle
        · rw [if_pos hlarge, min_eq_right hlarge.le]
        · rw [if_neg hle.not_gt, min_eq_left hle]
  | infinite s => exact zero_eq
  | undefined => exact zero_eq

theorem weigh_eq (d c b : ℚ) (x y z : Extended) :
    weigh ⟨finite d, finite c, finite b⟩ x y z =
      finite (d * x.share + c * y.share + b * z.share) := by
  simp only [weigh, unitValue_eq, finite_mul, finite_add]

end Extended

/-! ## Accepted weights -/

theorem Config.isWeight_of_validate
    {α : Type} [Score α] {config : Config α}
    (hvalidate : config.validate = .ok ()) :
    isWeight config.weights.degree = true ∧
      isWeight config.weights.closeness = true ∧
      isWeight config.weights.betweenness = true := by
  have hnone : config.flaw? = none := by
    rw [validate] at hvalidate
    cases hflaw : config.flaw? with
    | none => rfl
    | some flaw => simp [hflaw] at hvalidate
  unfold flaw? at hnone
  split_ifs at hnone with _ _ _ _ _ _ hweights
  simpa [and_assoc] using hweights

theorem Extended.exists_of_isWeight
    {w : Extended}
    (hweight : Config.isWeight w = true) :
    ∃ x, 0 ≤ x ∧ w = finite x := by
  rw [Config.isWeight, Bool.and_eq_true] at hweight
  obtain ⟨x, rfl⟩ := isFinite_iff.mp hweight.1
  exact ⟨x, by simpa using hweight.2, rfl⟩

/-- The weights of an accepted configuration are finite, and none is
negative. -/
theorem Config.exists_weights_of_validate
    {config : Config Extended}
    (hvalidate : config.validate = .ok ()) :
    ∃ d c b,
      0 ≤ d ∧
      0 ≤ c ∧
      0 ≤ b ∧
      config.weights = ⟨.finite d, .finite c, .finite b⟩ := by
  obtain ⟨hdegree, hcloseness, hbetweenness⟩ := isWeight_of_validate hvalidate
  obtain ⟨d, hd, hdegree⟩ := Extended.exists_of_isWeight hdegree
  obtain ⟨c, hc, hcloseness⟩ := Extended.exists_of_isWeight hcloseness
  obtain ⟨b, hb, hbetweenness⟩ := Extended.exists_of_isWeight hbetweenness
  refine ⟨d, c, b, hd, hc, hb, ?_⟩
  rw [← hdegree, ← hcloseness, ← hbetweenness]

end LinkAnalysis
