/-
  Calculator/Proofs/Number/Logarithm.lean
  =======================================
  **Where a logarithm is finite.**  The argument of the series lies between zero and
  one, so each of its 420 terms is at most one, and a magnitude in fixed point has
  fewer than 2600 bits.  So the logarithm of every positive magnitude is small, and
  rounding it gives a finite number.  Zeros and negative numbers do not come to the
  series.
-/
import Calculator.Number.Elementary
import Calculator.Proofs.Number.Accuracy

namespace Calculator

namespace FixedPoint

theorem times_le {z : Nat} (t : Nat) (hz : z ≤ one) : times z t ≤ t := by
  rw [times, Nat.shiftRight_eq_div_pow]
  exact Nat.div_le_of_le_mul (Nat.mul_le_mul_right t hz)

theorem quotient_le {x y : Nat} (h : x ≤ y) : quotient x y ≤ one := by
  rw [quotient, Nat.shiftLeft_eq]
  exact Nat.div_le_of_le_mul (Nat.mul_le_mul_right one h)

theorem areaTail_le {z : Nat} (hz : z ≤ one) (count index : Nat) :
    areaTail z count index ≤ count * one := by
  induction count generalizing index with
  | zero => exact Nat.zero_le _
  | succ count ih =>
    have hterm : one / index ≤ one := Nat.div_le_self one index
    have htail := (times_le _ hz).trans (ih (index + 2))
    rw [areaTail, Nat.succ_mul]
    omega

theorem areaTangent_le {x : Nat} (hx : x ≤ one) : areaTangent x ≤ 420 * one :=
  (times_le _ hx).trans (areaTail_le ((times_le x hx).trans hx) 420 1)

theorem ln2_le : ln2 ≤ 840 * one := by
  have hthird := areaTangent_le (Nat.div_le_self one 3)
  rw [ln2]
  omega

/-- A logarithm is small if its argument has not too many digits. -/
theorem natAbs_ln_le {x : Nat} (h : x.log2 ≤ 2600) : (ln x).natAbs ≤ 2 ^ 21 * one := by
  have hbits : fractionBits = 1300 := rfl
  rw [ln]
  generalize (if fractionBits ≤ x.log2 then x >>> (x.log2 - fractionBits)
    else x <<< (fractionBits - x.log2)) = m
  have hseries := areaTangent_le (@quotient_le (m - one) (m + one) (by omega))
  have hln2 := ln2_le
  generalize areaTangent (quotient (m - one) (m + one)) = a at hseries
  generalize ln2 = b at hln2
  generalize one = n at hseries hln2
  have hfactor : ((x.log2 : Int) - fractionBits).natAbs ≤ 1300 := by omega
  have hproduct : (((x.log2 : Int) - fractionBits) * b).natAbs ≤ 1300 * (840 * n) := by
    rw [Int.natAbs_mul, Int.natAbs_natCast]
    exact Nat.mul_le_mul hfactor hln2
  omega

end FixedPoint

theorem Magnitude.log2_fixed_le (m : Magnitude) : m.fixed.log2 ≤ 2600 := by
  by_cases hzero : m.fixed = 0
  · rw [hzero]
    decide
  · have hbits : FixedPoint.fractionBits = 1300 := rfl
    have hexp := m.canonical.2.1
    have hfixed : m.fixed = m.units <<< (FixedPoint.fractionBits - 1074) := rfl
    generalize hn : FixedPoint.fractionBits - 1074 = n at hfixed
    have hlt : m.fixed < 2 ^ (53 + m.exp + n) := by
      rw [hfixed, Nat.shiftLeft_eq, Nat.pow_add, Nat.pow_add]
      exact Nat.mul_lt_mul_of_pos_right m.units_lt (Nat.two_pow_pos n)
    have hlog := (Nat.log2_lt hzero).mpr hlt
    omega

namespace Binary64

theorem exists_ofFixed {x : Int} (h : x.natAbs ≤ 2 ^ 21 * FixedPoint.one) :
    ∃ d : Magnitude, ofFixed x = finite (decide (x < 0)) d := by
  have hone : 0 < FixedPoint.one := Nat.two_pow_pos FixedPoint.fractionBits
  obtain ⟨m, hm⟩ := @Magnitude.exists_value_natCast (2 ^ 21) (by decide)
  have hle : (x.natAbs / FixedPoint.one : ℚ) ≤ m.value := by
    rw [hm, div_le_iff₀ (Nat.cast_pos.mpr hone)]
    exact_mod_cast h
  have hnearest : IsNearest (decide (x < 0)) (x.natAbs / FixedPoint.one) (ofFixed x) := by
    rw [ofFixed, ofQuotient]
    refine isNearest_ofRatio _ hone ?_
    rw [Nat.cast_mul, mul_div_right_comm, mul_div_cancel_right₀ _ cast_unitsPerOne_pos.ne']
  obtain ⟨d, hd, -⟩ := hnearest.exists_finite hle
  exact ⟨d, hd⟩

theorem isFinite_ln {m : Magnitude} (h : m.units ≠ 0) :
    (ln (finite false m)).isFinite = true := by
  obtain ⟨d, hd⟩ := exists_ofFixed (FixedPoint.natAbs_ln_le m.log2_fixed_le)
  rw [ln, logarithm, if_neg h, if_neg Bool.false_ne_true, hd]
  rfl

theorem ln_negative {m : Magnitude} (h : m.units ≠ 0) : ln (finite true m) = nan := by
  rw [ln, logarithm, if_neg h, if_pos rfl]

theorem ln_zero (s : Bool) : ln (zero s) = inf true := rfl

end Binary64

end Calculator
