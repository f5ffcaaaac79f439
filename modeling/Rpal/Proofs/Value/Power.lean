import Mathlib
import Rpal.Value.Integer

/-!
# Powers by repeated squaring

A power is found by squaring, with products that are checked one by one. No product on the way is too
large unless the power is: what is squared is a factor of the power, and so is what is gathered. The
one square that is as large as a power that fits would be `2 ^ 63`, and this is no square.

## Key results

- `powOnto_eq`: the loop over the digits of the exponent
- `checkedPow_eq`: powers are exact, and refused exactly when they do not fit
-/

namespace Rpal.Integer

/-- An integer of 64 bits passes the check. -/
theorem checked_toInt (n : Int64) : checked n.toInt = some n :=
  checked_eq_some_iff.2 rfl

/-- The check fails on what does not fit in 64 bits. -/
theorem checked_eq_none_iff {n : Int} : checked n = none ↔ ¬Fits n := by
  rw [checked, ite_eq_right_iff]
  simp

/-! ### Products that do not fit -/

/-- A square that does not fit is larger than `2 ^ 63`, which is no square. -/
theorem lt_mul_self_of_not_fits {n : Int} (h : ¬Fits (n * n)) : 2 ^ 63 < n * n := by
  have habs : n * n = (n.natAbs * n.natAbs : Nat) := Int.natAbs_mul_self.symm
  rw [habs] at h ⊢
  have hroot : 3037000500 ≤ n.natAbs := by
    by_contra hlt
    have hle : n.natAbs * n.natAbs ≤ 3037000499 * 3037000499 :=
      Nat.mul_le_mul (by omega) (by omega)
    unfold Fits at h
    omega
  have hle : 3037000500 * 3037000500 ≤ n.natAbs * n.natAbs := Nat.mul_le_mul hroot hroot
  omega

/-- A multiple of what does not fit does not fit. -/
theorem not_fits_mul {n p : Int} (h : ¬Fits n) (hp : 1 ≤ p) : ¬Fits (n * p) := by
  unfold Fits at h ⊢
  rcases Int.le_total 0 n with hn | hn
  · have hle : n * 1 ≤ n * p := Int.mul_le_mul_of_nonneg_left hp hn
    omega
  · have hle : n * p ≤ n * 1 := Int.mul_le_mul_of_nonpos_left hn hp
    omega

/-- A multiple of what is larger than `2 ^ 63` does not fit. -/
theorem not_fits_mul_of_lt {n p : Int} (hn : n ≠ 0) (hp : 2 ^ 63 < p) : ¬Fits (n * p) := by
  unfold Fits
  rcases Int.lt_or_gt_of_ne hn with hn | hn
  · have hle : n * p ≤ -1 * p := Int.mul_le_mul_of_nonneg_right (by omega) (by omega)
    omega
  · have hle : 1 * p ≤ n * p := Int.mul_le_mul_of_nonneg_right (by omega) (by omega)
    omega

/-- A power of a square that does not fit is larger than `2 ^ 63`. -/
theorem lt_mul_self_pow_of_not_fits {n : Int} (h : ¬Fits (n * n)) {k : Nat} (hk : k ≠ 0) :
    2 ^ 63 < (n * n) ^ k := by
  have hlt := lt_mul_self_of_not_fits h
  calc (2 : Int) ^ 63 < n * n := hlt
    _ ≤ (n * n) ^ k := le_self_pow₀ (by omega) hk

/-- The powers of the square, and one factor if the exponent is odd. -/
theorem mul_self_pow_half (n : Int) (k : Nat) : (n * n) ^ (k / 2) * n ^ (k % 2) = n ^ k := by
  rw [← pow_two, ← pow_mul, ← pow_add, Nat.div_add_mod]

/-! ### The loops -/

/-- What is gathered is multiplied by the powers of `base ^ 2` for the exponent without its last
    digit. It is not zero unless the base is. -/
theorem powOnto_eq (acc base : Int64) (exponent : Nat) (h : base.toInt ≠ 0 → acc.toInt ≠ 0) :
    powOnto acc base exponent =
      checked (acc.toInt * (base.toInt * base.toInt) ^ (exponent / 2)) := by
  fun_induction powOnto acc base exponent with
  | case1 acc base exponent hle =>
    rw [show exponent / 2 = 0 by omega, pow_zero, mul_one, checked_toInt]
  | case2 acc base exponent hgt ih =>
    have hhalf : exponent / 2 ≠ 0 := by omega
    rw [checkedMul]
    cases hsquare : checked (base.toInt * base.toInt) with
    | none =>
      -- the square is a factor of the power, which is not zero
      have hfits := checked_eq_none_iff.1 hsquare
      have hbase : base.toInt ≠ 0 := by
        intro hzero
        rw [hzero] at hfits
        exact hfits (by decide)
      exact (checked_eq_none_iff.2
        (not_fits_mul_of_lt (h hbase) (lt_mul_self_pow_of_not_fits hfits hhalf))).symm
    | some square =>
      have hs := checked_eq_some_iff.1 hsquare
      have hne : square.toInt ≠ 0 → base.toInt ≠ 0 := fun hne hzero => hne (by rw [hs, hzero, mul_zero])
      rw [← hs, Option.bind_eq_bind, Option.bind_some, ← mul_self_pow_half]
      -- the exponent of the square has its own last digit
      by_cases hodd : exponent / 2 % 2 = 1
      · rw [if_pos hodd, hodd, pow_one, checkedMul]
        rw [mul_comm ((square.toInt * square.toInt) ^ _), ← mul_assoc acc.toInt]
        cases hacc : checked (acc.toInt * square.toInt) with
        | none =>
          have hfits := checked_eq_none_iff.1 hacc
          have hsquare : square.toInt ≠ 0 := by
            intro hzero
            rw [hzero, mul_zero] at hfits
            exact hfits (by decide)
          have hpow : 1 ≤ (square.toInt * square.toInt) ^ (exponent / 2 / 2) :=
            one_le_pow₀ (mul_self_pos.2 hsquare)
          exact (checked_eq_none_iff.2 (not_fits_mul hfits hpow)).symm
        | some next =>
          have hn := checked_eq_some_iff.1 hacc
          rw [← hn]
          exact ih square next fun hs => by
            rw [hn]
            exact mul_ne_zero (h (hne hs)) hs
      · have heven : exponent / 2 % 2 = 0 := by omega
        rw [if_neg hodd, heven, pow_zero, mul_one]
        exact ih square acc fun hs => h (hne hs)

/-- The power by repeated squaring is the exact power, and is refused exactly when that does not
    fit: no product on the way is too large before the power is. -/
theorem checkedPow_eq (base : Int64) (exponent : Nat) :
    checkedPow base exponent = checked (base.toInt ^ exponent) := by
  fun_induction checkedPow base exponent with
  | case1 base =>
    rw [pow_zero]
    exact (checked_toInt 1).symm
  | case2 base exponent hpos heven ih =>
    rw [checkedMul, ← mul_self_pow_half, heven, pow_zero, mul_one]
    cases hsquare : checked (base.toInt * base.toInt) with
    | none =>
      -- the square does not fit, and the power is not smaller
      have hlt := lt_mul_self_pow_of_not_fits (checked_eq_none_iff.1 hsquare)
        (show exponent / 2 ≠ 0 by omega)
      refine (checked_eq_none_iff.2 ?_).symm
      rw [← one_mul ((base.toInt * base.toInt) ^ _)]
      exact not_fits_mul_of_lt one_ne_zero hlt
    | some square =>
      rw [← checked_eq_some_iff.1 hsquare]
      exact ih square
  | case3 base exponent hpos hodd =>
    -- the first factor is taken out of an odd power, and the others are multiplied onto it
    have hpow := mul_self_pow_half base.toInt exponent
    rw [show exponent % 2 = 1 by omega, pow_one] at hpow
    rw [powOnto_eq base base exponent id, ← hpow, mul_comm]

/-- A power that fits although the square behind it does not. -/
example : checkedPow (-2) 63 = some Int64.minValue := by
  rw [checkedPow_eq]
  decide

end Rpal.Integer

