import LinkAnalysis.Proofs.Score.Scale

/-!
# Counts as scores

A score is divided by counts, by halves of counts, and by the largest of several
scores.  Exact numbers are positive where counts are, and so are machine
numbers: a positive count that fits a word is rounded to a machine number with
all 53 bits of the mantissa in use, and half of it is such a number again.
-/

namespace LinkAnalysis

/-- An arithmetic in which what scores are divided by is positive. -/
class Score.CountsPositive (α : Type) [Score α] : Prop where
  zero_lt_count {n : Nat} : 0 < n → n < wordSize → zero < (count n : α)
  zero_lt_half {n : Nat} : 0 < n → n < wordSize → zero < (count n / count 2 : α)
  zero_lt_of_not_le {x : α} : isFinite x = true → ¬ x ≤ zero → zero < x

instance Score.countsPositive_rat : CountsPositive ℚ where
  zero_lt_count hpos _ := by
    rw [zero_rat, count_rat]
    exact Nat.cast_pos.mpr hpos
  zero_lt_half hpos _ := by
    rw [zero_rat, count_rat, count_rat]
    exact div_pos (Nat.cast_pos.mpr hpos) (by norm_num)
  zero_lt_of_not_le _ hnot := not_le.mp hnot

section Machine

open Float.Model
open Float.Model.UnpackedFloat

/-- A positive machine number with a mantissa of 53 bits, and an exponent
between these two. -/
inductive FullPositive (low high : ℤ) : UnpackedFloat → Prop
  | intro {mantissa : Nat} {exponent : ℤ} (hpos : 0 < mantissa)
      (hfull : mantissa.log2 = 52) (hlow : low ≤ exponent)
      (hhigh : exponent ≤ high) :
      FullPositive low high (.finite .positive mantissa exponent hpos)

theorem FullPositive.mono
    {low high low' high' : ℤ} {x : UnpackedFloat}
    (hpositive : FullPositive low high x)
    (hlow : low' ≤ low)
    (hhigh : high ≤ high') :
    FullPositive low' high' x := by
  cases hpositive with
  | intro hpos hfull hle hge =>
      exact .intro hpos hfull (hlow.trans hle) (hge.trans hhigh)

/-! ## Rounding -/

theorem bounds_of_log2 {m : Nat} (hm : m.log2 = 52) :
    2 ^ 52 ≤ m ∧ m < 2 ^ 53 := by
  apply (Nat.log2_eq_iff _).mp hm
  intro hzero
  rw [hzero, Nat.log2_zero] at hm
  omega

theorem mantissa_ofMantissaAndAccuracy (m : Nat) (accuracy : Accuracy) :
    (ExtendedMantissa.ofMantissaAndAccuracy m accuracy).mantissa = m := by
  cases accuracy with
  | exact => rfl
  | inexact o => cases o <;> rfl

theorem mantissa_shiftRight (em : ExtendedMantissa) (k : Nat) :
    (em >>> k).mantissa = em.mantissa / 2 ^ k := by
  change (k.repeat ExtendedMantissa.shiftRightOne em).mantissa = _
  induction k with
  | zero => rw [pow_zero, Nat.div_one]; rfl
  | succ k ih =>
      change (k.repeat ExtendedMantissa.shiftRightOne em).mantissa / 2 = _
      rw [ih, Nat.div_div_eq_div_mul, ← Nat.pow_succ]

/-- Rounding goes to the next mantissa at most. -/
theorem le_roundedMantissa (em : ExtendedMantissa) :
    em.mantissa ≤ em.roundedMantissa ∧
      em.roundedMantissa ≤ em.mantissa + 1 := by
  rcases em with ⟨m, round, sticky⟩
  cases round <;> cases sticky <;>
    simp only [ExtendedMantissa.roundedMantissa, ExtendedMantissa.accuracy,
      Accuracy.roundToNearestEven] <;> omega

theorem log2_div_eq {m : Nat} (hm : 52 ≤ m.log2) :
    (m / 2 ^ (m.log2 - 52)).log2 = 52 := by
  have hpos : m ≠ 0 := by
    intro hzero
    rw [hzero, Nat.log2_zero] at hm
    omega
  rcases (Nat.log2_eq_iff hpos).mp rfl with ⟨hle, hlt⟩
  have hlow : 2 ^ 52 ≤ m / 2 ^ (m.log2 - 52) := by
    rw [Nat.le_div_iff_mul_le (Nat.two_pow_pos _), ← Nat.pow_add,
      Nat.add_sub_cancel' hm]
    exact hle
  have hhigh : m / 2 ^ (m.log2 - 52) < 2 ^ 53 := by
    rw [Nat.div_lt_iff_lt_mul (Nat.two_pow_pos _), ← Nat.pow_add]
    exact hlt.trans_eq (congrArg (2 ^ ·) (by omega))
  exact (Nat.log2_eq_iff (by omega)).mpr ⟨hlow, hhigh⟩

/-- Of a mantissa that is long enough, 53 bits are kept. -/
theorem shiftToTargetExponent_of_le
    {m : Nat} {e : ℤ}
    (hm : 52 ≤ m.log2)
    (he : -1074 ≤ e)
    (accuracy : Accuracy) :
    (shiftToTargetExponent .binary64 m e accuracy).1.mantissa.log2 = 52 ∧
      (shiftToTargetExponent .binary64 m e accuracy).2 =
        e + (m.log2 - 52 : Nat) := by
  have htarget : Format.binary64.targetExponent (totalExponent m e) =
      e + (m.log2 - 52 : Nat) := by
    simp only [Format.targetExponent, totalExponent, Format.mantissaBits,
      Format.minExponent]
    omega
  have hshift : (Format.binary64.targetExponent (totalExponent m e) - e).toNat =
      m.log2 - 52 := by
    rw [htarget]
    omega
  rw [shiftToTargetExponent, shiftToExponent, hshift, mantissa_shiftRight,
    mantissa_ofMantissaAndAccuracy]
  exact ⟨log2_div_eq hm, rfl⟩

/-- A rounded mantissa may have one bit too many, so it is shifted twice. -/
theorem fullPositive_roundWithAccuracy
    {m : Nat} {e : ℤ}
    (hm : 52 ≤ m.log2)
    (he : -1074 ≤ e)
    (accuracy : Accuracy) :
    FullPositive e (e + (m.log2 - 51 : Nat))
      (roundWithAccuracy .binary64 .positive m e accuracy) := by
  rcases shiftToTargetExponent_of_le hm he accuracy with ⟨hfull, hexponent⟩
  unfold roundWithAccuracy
  generalize shiftToTargetExponent .binary64 m e accuracy = shifted
    at hfull hexponent ⊢
  rcases shifted with ⟨em, e₁⟩
  change em.mantissa.log2 = 52 at hfull
  change e₁ = _ at hexponent
  rcases le_roundedMantissa em with ⟨hle, hle'⟩
  rcases bounds_of_log2 hfull with ⟨hlow, hhigh⟩
  have hrounded : 52 ≤ em.roundedMantissa.log2 :=
    (Nat.le_log2 (by omega)).mpr (hlow.trans hle)
  have hrounded' : em.roundedMantissa.log2 < 54 :=
    (Nat.log2_lt (by omega)).mpr (by omega)
  rcases shiftToTargetExponent_of_le hrounded (e := e₁) (by omega) .exact
    with ⟨hfull', hexponent'⟩
  have hlow' := (bounds_of_log2 hfull').1
  dsimp only
  rw [dif_neg (by omega)]
  exact .intro _ hfull' (by omega) (by omega)

/-! ## Counts and quotients -/

theorem log2_shiftLeft
    {n : Nat}
    (hn : 0 < n)
    (k : Nat) :
    (n <<< k).log2 = n.log2 + k := by
  rw [Nat.shiftLeft_eq]
  have hpos : n * 2 ^ k ≠ 0 := (Nat.mul_pos hn (Nat.two_pow_pos k)).ne'
  rcases (Nat.log2_eq_iff hn.ne').mp rfl with ⟨hle, hlt⟩
  apply (Nat.log2_eq_iff hpos).mpr
  rw [Nat.pow_add, Nat.add_right_comm, Nat.pow_add _ (n.log2 + 1)]
  exact ⟨Nat.mul_le_mul_right _ hle,
    Nat.mul_lt_mul_of_pos_right hlt (Nat.two_pow_pos k)⟩

theorem fullPositive_ofNat
    {n : Nat}
    (hn : 0 < n)
    (hword : n < 2 ^ 64) :
    FullPositive (-52) 64 (UnpackedFloat.ofNat .binary64 n) := by
  have hlog : n.log2 < 64 := (Nat.log2_lt hn.ne').mpr hword
  have htarget : Format.binary64.targetExponent (totalExponent n 0) =
      (n.log2 : ℤ) - 52 := by
    simp only [Format.targetExponent, totalExponent, Format.mantissaBits,
      Format.minExponent]
    omega
  have hshift : (0 - ((n.log2 : ℤ) - 52)).toNat = 52 - n.log2 := by omega
  have hlog' := log2_shiftLeft hn (52 - n.log2)
  unfold UnpackedFloat.ofNat UnpackedFloat.ofInt UnpackedFloat.normalize
  rw [Int.compare_eq_gt.mpr (Int.natCast_pos.mpr hn)]
  change FullPositive _ _ (UnpackedFloat.round .binary64 .positive n 0)
  rw [UnpackedFloat.round, htarget, decreaseExponent, hshift]
  have hround := fullPositive_roundWithAccuracy (m := n <<< (52 - n.log2))
    (e := 0 - (52 - n.log2 : Nat)) (by omega) (by omega) .exact
  rw [hlog'] at hround
  exact hround.mono (by omega) (by omega)

/-- The quotient of two mantissas of 53 bits is taken with 53 more bits, so it
has enough of them. -/
theorem log2_quotient_mem
    {m n : Nat}
    (hm : m.log2 = 52)
    (hn : n.log2 = 52) :
    52 ≤ (m <<< 53 / n).log2 ∧ (m <<< 53 / n).log2 ≤ 105 := by
  rcases bounds_of_log2 hm with ⟨hle, -⟩
  rcases bounds_of_log2 hn with ⟨hle', hlt⟩
  have hpos : 0 < m := by omega
  have hpos' : 0 < n := by omega
  have hquotient : 2 ^ 52 ≤ m <<< 53 / n := by
    rw [Nat.le_div_iff_mul_le hpos', Nat.shiftLeft_eq]
    exact Nat.mul_le_mul hle hlt.le
  have hbelow : m <<< 53 / n < 2 ^ 106 := by
    have hshifted : (m <<< 53).log2 < 106 := by
      rw [log2_shiftLeft hpos, hm]; omega
    exact (Nat.div_le_self _ n).trans_lt
      ((Nat.log2_lt (Nat.shiftLeft_pos_iff.mpr hpos).ne').mp hshifted)
  exact ⟨(Nat.le_log2 (by omega)).mpr hquotient,
    Nat.le_of_lt_succ ((Nat.log2_lt (by omega)).mpr hbelow)⟩

theorem fullPositive_div
    {x y : UnpackedFloat}
    (hx : FullPositive (-52) 64 x)
    (hy : FullPositive (-52) 64 y) :
    FullPositive (-200) 200 (UnpackedFloat.div .binary64 x y) := by
  cases hx with
  | @intro m e hpos hfull hlow hhigh =>
      cases hy with
      | @intro n d hpos' hfull' hlow' hhigh' =>
          have htarget : Format.binary64.targetExponent
                (totalExponent m e - totalExponent n d) = e - d - 53 := by
            simp only [Format.targetExponent, totalExponent,
              Format.mantissaBits, Format.minExponent, hfull, hfull']
            omega
          have hmin : min (e - d) (e - d - 53) = e - d - 53 := by omega
          have hshift : (e - d - (e - d - 53)).toNat = 53 := by omega
          have hcore : divCore .binary64 m e n d = (m <<< 53 / n, e - d - 53,
              accuracyOfFraction (m <<< 53 % n) n) := by
            rw [divCore, htarget, hmin, hshift]
          rcases log2_quotient_mem hfull hfull' with ⟨hlong, hshort⟩
          have hround := fullPositive_roundWithAccuracy (e := e - d - 53) hlong
            (by omega) (accuracyOfFraction (m <<< 53 % n) n)
          rw [UnpackedFloat.div, hcore]
          exact hround.mono (by omega) (by omega)

/-! ## Packing -/

theorem unpackSign_packComponents
    {spec : Format} (sign : Sign) (e : BitVec spec.exponentBits)
    (m : BitVec spec.mantissaBitsWithoutImplicit) :
    unpackSign (packComponents spec sign e m) = sign.toBitVec := by
  ext i hi
  obtain rfl : i = 0 := by omega
  simp [unpackSign, packComponents, BitVec.getLsbD_append,
    BitVec.getElem_append]

/-- The leading bit is not stored, and put back. -/
theorem toNat_append_ofNat {m : Nat} (hm : m.log2 = 52) :
    (1#1 ++ BitVec.ofNat 52 m).toNat = m := by
  rcases bounds_of_log2 hm with ⟨hle, hlt⟩
  rw [BitVec.toNat_append, ← Nat.shiftLeft_add_eq_or_of_lt (BitVec.isLt _),
    BitVec.toNat_ofNat]
  simp only [BitVec.toNat_ofNat, Nat.shiftLeft_eq]
  omega

/-- A packed number is read back as it was: neither all bits of the exponent are
set nor none, so it is taken for an ordinary number. -/
theorem unpack_pack
    {low high : ℤ} {x : UnpackedFloat}
    (hx : FullPositive low high x)
    (hlow : -1074 ≤ low)
    (hhigh : high ≤ 971) :
    (Float.Model.pack x).unpack = x := by
  cases hx with
  | @intro m e hpos hfull hle hge =>
      have hbiased : (e + 1023 + 52).toNat + 1 < 2048 := by omega
      have hexponent : (BitVec.ofNat 11 (e + 1023 + 52).toNat).toNat =
          (e + 1023 + 52).toNat := by
        rw [BitVec.toNat_ofNat, Nat.mod_eq_of_lt (by omega)]
      have hones : BitVec.ofNat 11 (e + 1023 + 52).toNat ≠ -1#11 := by
        intro hbits
        rw [hbits] at hexponent
        change 2047 = _ at hexponent
        omega
      have hzero : BitVec.ofNat 11 (e + 1023 + 52).toNat ≠ 0#11 := by
        intro hbits
        rw [hbits] at hexponent
        change 0 = _ at hexponent
        omega
      have hvalue : ((e + 1023 + 52).toNat : ℤ) - (1023 + 52) = e := by omega
      have hpack : UnpackedFloat.pack .binary64 (.finite .positive m e hpos) =
          packComponents .binary64 .positive
            (BitVec.ofNat 11 (e + 1023 + 52).toNat) (BitVec.ofNat 52 m) := by
        unfold UnpackedFloat.pack
        change (if 2048 ≤ (e + 1023 + 52).toNat + 1 then _ else
          if m.log2 + 1 = 53 then _ else _) = _
        rw [if_neg (by omega), if_pos (by omega)]
        rfl
      change UnpackedFloat.unpack .binary64 (UnpackedFloat.pack .binary64 _) = _
      rw [hpack, UnpackedFloat.unpack]
      simp only [unpackMantissa_packComponents, unpackExponent_packComponents,
        unpackSign_packComponents, if_neg hones, if_neg hzero, hexponent,
        toNat_append_ofNat hfull]
      rw [UnpackedFloat.finite.injEq]
      exact ⟨rfl, rfl, hvalue⟩

/-! ## Positive machine numbers -/

theorem unpack_zero : (Score.zero : Float).toModel.unpack = .zero .positive :=
  rfl

theorem le_iff_compare {x y : Float} :
    x ≤ y ↔ (x.toModel.unpack.compare y.toModel.unpack).any (·.isLE) = true :=
  decide_eq_true_iff

theorem zero_lt_of_fullPositive
    {low high : ℤ} {x : Float}
    (hx : FullPositive low high x.toModel.unpack) :
    Score.zero < x := by
  rw [lt_iff_compare, unpack_zero]
  generalize x.toModel.unpack = u at hx ⊢
  cases hx with
  | intro => rfl

theorem fullPositive_count
    {n : Nat}
    (hn : 0 < n)
    (hword : n < wordSize) :
    FullPositive (-52) 64 (Score.count n : Float).toModel.unpack := by
  have hvalue : n.toUInt64.toNat = n := Nat.mod_eq_of_lt hword
  have hfull := fullPositive_ofNat hn hword
  change FullPositive _ _
    (Float.Model.pack (UnpackedFloat.ofNat .binary64 n.toUInt64.toNat)).unpack
  rw [hvalue, unpack_pack hfull (by omega) (by omega)]
  exact hfull

instance Score.countsPositive_float : CountsPositive Float where
  zero_lt_count hn hword :=
    zero_lt_of_fullPositive (fullPositive_count hn hword)
  zero_lt_half {n} hn hword := by
    have hhalf := fullPositive_div (fullPositive_count hn hword)
      (fullPositive_count (n := 2) (by decide) (by decide))
    have hfull :
        FullPositive (-200) 200 (count n / count 2 : Float).toModel.unpack := by
      change FullPositive _ _ (Float.Model.pack (UnpackedFloat.div .binary64
          (count n : Float).toModel.unpack
          (count 2 : Float).toModel.unpack)).unpack
      rw [unpack_pack hhalf (by omega) (by omega)]
      exact hhalf
    exact zero_lt_of_fullPositive hfull
  zero_lt_of_not_le {x} hfinite hle := by
    have hfinite' : x.toModel.unpack.isFinite = true := hfinite
    have hle' :
        ¬ (x.toModel.unpack.compare (.zero .positive)).any (·.isLE) = true := by
      rwa [le_iff_compare, unpack_zero] at hle
    rw [lt_iff_compare, unpack_zero]
    generalize x.toModel.unpack = u at hfinite' hle' ⊢
    cases u with
    | notANumber | infinity => exact nomatch hfinite'
    | zero => exact absurd rfl hle'
    | finite sign =>
        cases sign with
        | negative => exact absurd rfl hle'
        | positive => rfl

end Machine

end LinkAnalysis
