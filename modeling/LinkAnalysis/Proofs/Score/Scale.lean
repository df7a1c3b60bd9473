import LinkAnalysis.Proofs.Rational
import Mathlib

/-!
# Scales

A scale gives every score a level in a linear order, and scores are compared by
their levels.  What is undefined is at the bottom, and compares with nothing.
Exact numbers are their own levels.  A machine number is below another if the
kind of number that it is comes before the other's; numbers of one kind are told
apart by exponents first and then by mantissas.
-/

namespace LinkAnalysis

/-! ## Descending orders -/

section Descending

variable {β ρ κ : Type} [LinearOrder ρ] [LinearOrder κ]
  {score : β → ρ} {key : β → κ} {le : β → β → Bool}

/-- Higher scores first, and items of one score in the order of their keys. -/
def Descending (score : β → ρ) (key : β → κ) (le : β → β → Bool) : Prop :=
  ∀ x y, le x y = true ↔ score y < score x ∨ score y = score x ∧ key x ≤ key y

theorem Descending.total (hdescending : Descending score key le) (x y : β) :
    (le x y || le y x) = true := by
  rw [Bool.or_eq_true, hdescending x y, hdescending y x]
  rcases lt_trichotomy (score y) (score x) with hlt | heq | hgt
  · exact Or.inl (Or.inl hlt)
  · rcases le_total (key x) (key y) with hle | hge
    · exact Or.inl (Or.inr ⟨heq, hle⟩)
    · exact Or.inr (Or.inr ⟨heq.symm, hge⟩)
  · exact Or.inr (Or.inl hgt)

theorem Descending.trans
    (hdescending : Descending score key le)
    (x y z : β)
    (hxy : le x y = true)
    (hyz : le y z = true) :
    le x z = true := by
  rw [hdescending] at hxy hyz ⊢
  rcases hxy with hxy | ⟨hxy, hkey⟩
  · rcases hyz with hyz | ⟨hyz, -⟩
    · exact Or.inl (hyz.trans hxy)
    · exact Or.inl (hyz.trans_lt hxy)
  · rcases hyz with hyz | ⟨hyz, hkey'⟩
    · exact Or.inl (hyz.trans_eq hxy)
    · exact Or.inr ⟨hyz.trans hxy, hkey.trans hkey'⟩

theorem Descending.key_eq
    (hdescending : Descending score key le)
    {x y : β}
    (hxy : le x y = true)
    (hyx : le y x = true) :
    key x = key y := by
  rw [hdescending] at hxy hyx
  rcases hxy with hxy | ⟨hxy, hkey⟩
  · rcases hyx with hyx | ⟨hyx, -⟩
    · exact absurd hxy hyx.not_gt
    · exact absurd hxy hyx.not_gt
  · rcases hyx with hyx | ⟨-, hkey'⟩
    · exact absurd hxy hyx.ne'
    · exact le_antisymm hkey hkey'

theorem Descending.pairwise_mergeSort
    (hdescending : Descending score key le)
    (l : List β) :
    (l.mergeSort le).Pairwise fun x y => le x y = true :=
  List.pairwise_mergeSort hdescending.trans hdescending.total l

theorem descending_compare
    [DecidableLT ρ] [DecidableLE κ] (score : β → ρ) (key : β → κ) :
    Descending score key fun x y =>
      if score y < score x then true
      else if score x < score y then false else decide (key x ≤ key y) := by
  intro x y
  beta_reduce
  by_cases hlt : score y < score x
  · rw [if_pos hlt]
    exact iff_of_true rfl (Or.inl hlt)
  · by_cases hgt : score x < score y
    · rw [if_neg hlt, if_pos hgt]
      exact iff_of_false Bool.false_ne_true fun heither =>
        heither.elim hlt fun heq => hgt.ne' heq.1
    · have heq : score y = score x :=
        le_antisymm (not_lt.mp hgt) (not_lt.mp hlt)
      rw [if_neg hlt, if_neg hgt, decide_eq_true_iff]
      exact ⟨fun hle => Or.inr ⟨heq, hle⟩,
        fun heither => heither.elim (fun hless => absurd hless hlt) And.right⟩

end Descending

/-! ## Levels of scores -/

/-- Scores compare by their levels, and not at all with what is at the
bottom. -/
def Scale {α κ : Type} [LT α] [LinearOrder κ] (level : α → WithBot κ) : Prop :=
  ∀ x y, x < y ↔ level x ≠ ⊥ ∧ level x < level y

namespace Scale

variable {α κ : Type} [LT α] [LinearOrder κ] {level : α → WithBot κ} {x y : α}

theorem lt_iff
    (hscale : Scale level)
    (hx : level x ≠ ⊥) :
    x < y ↔ level x < level y := by
  rw [hscale x y, and_iff_right hx]

theorem level_lt (hscale : Scale level) (hxy : x < y) : level x < level y :=
  ((hscale x y).mp hxy).2

theorem ne_bot_of_lt (hscale : Scale level) (hxy : x < y) : level y ≠ ⊥ :=
  (hscale.level_lt hxy).ne_bot

end Scale

theorem scale_rat : Scale (fun x : ℚ => (x : WithBot ℚ)) := fun x y => by
  rw [WithBot.coe_lt_coe, and_iff_right (WithBot.coe_ne_bot)]

/-! ## Levels of machine numbers -/

section Machine

open Float.Model (UnpackedFloat)
open Float.Model.UnpackedFloat (Sign)

/-- The place of a machine number among all others: the kind of number with its
sign, and for ordinary numbers other than zero the exponent and the mantissa,
which count downwards below zero. -/
def binaryPlace : UnpackedFloat → ℤ ×ₗ ℤ ×ₗ ℤ
  | .notANumber | .zero _ => toLex (0, toLex (0, 0))
  | .finite sign mantissa exponent _ =>
    toLex (sign.apply 1, toLex (sign.apply exponent, sign.apply mantissa))
  | .infinity sign => toLex (sign.apply 2, toLex (0, 0))

/-- The level of a machine number: its place, if it is defined. -/
def binaryLevel (x : Float) : WithBot (ℤ ×ₗ ℤ ×ₗ ℤ) :=
  if x.isNaN then ⊥ else binaryPlace x.toModel.unpack

theorem compares_then
    {κ ι : Type} [LinearOrder κ] [LinearOrder ι] (a b : κ) (c d : ι) :
    ((compare a b).then (compare c d)).Compares (toLex (a, c))
      (toLex (b, d)) := by
  rcases hab : compare a b with _ | _ | _
  · exact Prod.Lex.toLex_lt_toLex.mpr (Or.inl (compare_lt_iff_lt.mp hab))
  · obtain rfl := compare_eq_iff_eq.mp hab
    rcases hcd : compare c d with _ | _ | _
    · exact Prod.Lex.toLex_lt_toLex.mpr (Or.inr ⟨rfl, compare_lt_iff_lt.mp hcd⟩)
    · exact congrArg (fun c => toLex (a, c)) (compare_eq_iff_eq.mp hcd)
    · exact Prod.Lex.toLex_lt_toLex.mpr (Or.inr ⟨rfl, compare_gt_iff_gt.mp hcd⟩)
  · exact Prod.Lex.toLex_lt_toLex.mpr (Or.inl (compare_gt_iff_gt.mp hab))

theorem compares_finite
    (sign : Sign) {m n : ℕ} (d e : ℤ)
    (hm : 0 < m)
    (hn : 0 < n) :
    ∃ o,
      (UnpackedFloat.finite sign m d hm).compare (.finite sign n e hn) =
        some o ∧
      o.Compares (binaryPlace (.finite sign m d hm))
        (binaryPlace (.finite sign n e hn)) := by
  let place (q : ℤ ×ₗ ℕ) : ℤ ×ₗ ℤ ×ₗ ℤ :=
    toLex (sign.apply 1, toLex (sign.apply (ofLex q).1, sign.apply (ofLex q).2))
  have hcompares := compares_then d e m n
  cases sign with
  | negative =>
      have hanti : StrictAnti place := fun p q hpq => by
        rw [Prod.Lex.lt_iff] at hpq
        simp only [place, Sign.apply, Prod.Lex.toLex_lt_toLex, true_and]
        omega
      have hswap : ((compare d e).then (compare m n)).swap.Compares
          (toLex (e, n)) (toLex (d, m)) :=
        Ordering.compares_swap.mpr hcompares
      exact ⟨_, rfl, hanti.compares.mpr hswap⟩
  | positive =>
      have hmono : StrictMono place := fun p q hpq => by
        rw [Prod.Lex.lt_iff] at hpq
        simp only [place, Sign.apply, Prod.Lex.toLex_lt_toLex, true_and]
        omega
      exact ⟨_, rfl, hmono.compares.mpr hcompares⟩

/-- Machine numbers are compared by their places; numbers of two kinds are told
apart by their kinds. -/
theorem exists_compares
    {x y : UnpackedFloat}
    (hx : x.isNaN = false)
    (hy : y.isNaN = false) :
    ∃ o, x.compare y = some o ∧ o.Compares (binaryPlace x) (binaryPlace y) := by
  cases x with
  | notANumber => exact nomatch hx
  | infinity s | zero s =>
      cases y with
      | notANumber => exact nomatch hy
      | _ s' =>
          cases s <;> cases s' <;> refine ⟨_, rfl, ?_⟩ <;>
            simp [Ordering.Compares, binaryPlace, Sign.apply,
              Prod.Lex.toLex_lt_toLex, compare]
  | finite s m d hm =>
      cases y with
      | notANumber => exact nomatch hy
      | infinity s' | zero s' =>
          cases s <;> cases s' <;> refine ⟨_, rfl, ?_⟩ <;>
            simp [Ordering.Compares, binaryPlace, Sign.apply,
              Prod.Lex.toLex_lt_toLex]
      | finite s' n e hn =>
          by_cases hs : s = s'
          · subst hs
            exact compares_finite s d e hm hn
          · cases s <;> cases s' <;> try exact absurd rfl hs
            all_goals
              refine ⟨_, rfl, ?_⟩
              simp [Ordering.Compares, binaryPlace, Sign.apply,
                Prod.Lex.toLex_lt_toLex]

theorem lt_iff_compare {x y : Float} :
    x < y ↔ x.toModel.unpack.compare y.toModel.unpack = some .lt := by
  simp [LT.lt, Float.lt, Float.Model.lt, UnpackedFloat.lt]

theorem beq_iff_compare {x y : Float} :
    (x == y) = true ↔ x.toModel.unpack.compare y.toModel.unpack = some .eq := by
  exact beq_iff_eq (a := x.toModel.unpack.compare y.toModel.unpack)

theorem binaryLevel_ne_bot_iff {x : Float} :
    binaryLevel x ≠ ⊥ ↔ x.isNaN = false := by
  unfold binaryLevel
  split
  case isTrue hnan =>
    exact iff_of_false (fun hne => hne rfl) fun hfalse =>
      nomatch hnan.symm.trans hfalse
  case isFalse hnumber =>
    exact iff_of_true WithBot.coe_ne_bot (Bool.eq_false_of_not_eq_true hnumber)

theorem compare_eq_none
    {x y : UnpackedFloat}
    (heither : x.isNaN = true ∨ y.isNaN = true) :
    x.compare y = none := by
  rcases heither with hnan | hnan
  · cases x <;> first | rfl | exact nomatch hnan
  · cases y <;> first | (cases x <;> rfl) | exact nomatch hnan

/-- A comparison of machine numbers comes out as that of their levels does. -/
theorem compare_eq_some_iff {x y : Float} {o : Ordering} :
    x.toModel.unpack.compare y.toModel.unpack = some o ↔
      binaryLevel x ≠ ⊥ ∧
        binaryLevel y ≠ ⊥ ∧
        o.Compares (binaryLevel x) (binaryLevel y) := by
  rw [binaryLevel_ne_bot_iff, binaryLevel_ne_bot_iff]
  by_cases hdefined : x.isNaN = false ∧ y.isNaN = false
  · obtain ⟨hx, hy⟩ := hdefined
    obtain ⟨o', hcompare, hplaces⟩ := exists_compares hx hy
    have hlevels : o'.Compares (binaryLevel x) (binaryLevel y) := by
      rw [binaryLevel, binaryLevel, hx, hy]
      exact WithBot.coe_strictMono.compares.mpr hplaces
    rw [hcompare, Option.some.injEq, and_iff_right hx, and_iff_right hy]
    exact ⟨fun heq => heq ▸ hlevels, fun hcompares => hlevels.inj hcompares⟩
  · have hnone : x.toModel.unpack.compare y.toModel.unpack = none := by
      rw [not_and_or, Bool.not_eq_false, Bool.not_eq_false] at hdefined
      exact compare_eq_none hdefined
    rw [hnone]
    exact iff_of_false nofun fun hboth => hdefined ⟨hboth.1, hboth.2.1⟩

theorem scale_float : Scale binaryLevel := fun x y => by
  rw [lt_iff_compare, compare_eq_some_iff]
  exact ⟨fun hboth => ⟨hboth.1, hboth.2.2⟩,
    fun hboth => ⟨hboth.1, hboth.2.ne_bot, hboth.2⟩⟩

theorem beq_iff_binaryLevel {x y : Float} :
    (x == y) = true ↔ binaryLevel x ≠ ⊥ ∧ binaryLevel x = binaryLevel y := by
  rw [beq_iff_compare, compare_eq_some_iff]
  exact ⟨fun hboth => ⟨hboth.1, hboth.2.2⟩,
    fun hboth => ⟨hboth.1, hboth.2 ▸ hboth.1, hboth.2⟩⟩

end Machine

end LinkAnalysis
