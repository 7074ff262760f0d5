/-
  Calculator/Proofs/Number/Remainder.lean
  =======================================
  **Remainders are exact.**  Two magnitudes are on the grid of the smaller of their
  exponents, and so is the remainder of one by the other, however many bits their
  quotient has.  The remainder is not above the dividend and below the divisor, one
  of which has its significand on that grid, so the remainder has a significand of
  53 bits as well.  It is therefore a magnitude, and rounding leaves it alone.

  The quotient of two numbers of units is the quotient of the values, and what is
  left of the dividend after the integral part of the quotient has the sign of the
  dividend, whatever the sign of the divisor is.
-/
import Calculator.Expr.Evaluate
import Calculator.Proofs.Number.Amounts
import Mathlib.Data.Rat.Floor

namespace Calculator

namespace Magnitude

/-! ### Magnitudes of few significant bits -/

/-- Every significand of at most 53 bits has a magnitude. -/
theorem exists_units_eq_mul {j e : Nat} (hj : j < 2 ^ 53) (he : e ≤ 2045) :
    ∃ d : Magnitude, d.units = j * 2 ^ e := by
  induction e generalizing j with
  | zero => exact ⟨⟨j, 0, hj, he, Or.inl rfl⟩, rfl⟩
  | succ e ih =>
    by_cases hnormal : 2 ^ 52 ≤ j
    · exact ⟨⟨j, e + 1, hj, he, Or.inr hnormal⟩, rfl⟩
    · obtain ⟨d, hd⟩ := @ih (2 * j) (by omega) (by omega)
      refine ⟨d, ?_⟩
      rw [hd, Nat.pow_succ]
      ac_rfl

theorem exists_units_eq_mod (m : Magnitude) {n : Magnitude} (hn : n.units ≠ 0) :
    ∃ d : Magnitude, d.units = m.units % n.units := by
  rcases Nat.le_total m.exp n.exp with hle | hle
  · -- The dividend's significand bounds the remainder.
    obtain ⟨j, hj⟩ := exists_units_eq hle
    have hmod : m.units % n.units = m.mant % j * 2 ^ m.exp := by
      rw [hj, units, Nat.mul_mod_mul_right]
    have hlt : m.mant % j < 2 ^ 53 := (Nat.mod_le _ _).trans_lt m.canonical.1
    rw [hmod]
    exact exists_units_eq_mul hlt m.canonical.2.1
  · -- The divisor's significand does.
    obtain ⟨i, hi⟩ := exists_units_eq hle
    have hmod : m.units % n.units = i % n.mant * 2 ^ n.exp := by
      rw [hi, units, Nat.mul_mod_mul_right]
    have hpos : 0 < n.mant := by
      apply Nat.pos_of_ne_zero
      intro hzero
      rw [units, hzero, Nat.zero_mul] at hn
      exact hn rfl
    have hlt : i % n.mant < 2 ^ 53 := (Nat.mod_lt i hpos).trans n.canonical.1
    rw [hmod]
    exact exists_units_eq_mul hlt n.canonical.2.1

theorem value_div_value (m n : Magnitude) : m.value / n.value = m.units / n.units := by
  rw [value, value, div_div_div_cancel_right₀ cast_unitsPerOne_pos.ne']

theorem value_nonneg (m : Magnitude) : 0 ≤ m.value := by
  rw [value]
  positivity

end Magnitude

/-! ### Integral parts -/

/-- The integral part of a rational, toward zero. -/
def truncation (q : ℚ) : ℤ := if q < 0 then ⌈q⌉ else ⌊q⌋

section Sign

variable {s t : Bool} {q r : ℚ}

theorem withSign_sub : withSign s (q - r) = withSign s q - withSign s r := by
  cases s with
  | false => rfl
  | true => exact neg_sub' q r

theorem withSign_mul : withSign s q * withSign t r = withSign (s ^^ t) (q * r) := by
  cases s <;> cases t <;> simp [withSign]

theorem withSign_div : withSign s q / withSign t r = withSign (s ^^ t) (q / r) := by
  cases s <;> cases t <;> simp [withSign, neg_div, div_neg]

theorem truncation_withSign (hq : 0 ≤ q) : (truncation (withSign s q) : ℚ) = withSign s ⌊q⌋ := by
  cases s with
  | false =>
    rw [withSign, if_neg Bool.false_ne_true, withSign, if_neg Bool.false_ne_true, truncation,
      if_neg hq.not_gt]
  | true =>
    rw [withSign, if_pos rfl, withSign, if_pos rfl, truncation]
    by_cases hzero : q = 0
    · simp [hzero]
    · have hneg : -q < 0 := neg_lt_zero.mpr (hq.lt_of_ne' hzero)
      rw [if_pos hneg, Int.ceil_neg, Int.cast_neg]

end Sign

namespace Binary64

/-- A finite number with a given sign bit and value. -/
def IsExactly (x : Binary64) (neg : Bool) (q : ℚ) : Prop := (∃ m, x = finite neg m) ∧ x.value = q

theorem ofRatio_units (s : Bool) (m : Magnitude) : ofRatio s m.units 1 = finite s m := by
  rw [ofRatio, Magnitude.nearest?_units]
  rfl

/-! ### Remainders -/

theorem rem_finite (s t : Bool) (m : Magnitude) {n : Magnitude} (hn : n.units ≠ 0) :
    ∃ r : Magnitude, rem (finite s m) (finite t n) = finite s r ∧ r.units = m.units % n.units := by
  obtain ⟨r, hr⟩ := Magnitude.exists_units_eq_mod m hn
  refine ⟨r, ?_, hr⟩
  rw [rem, rem?, if_neg hn, Option.getD_some, ← hr]
  exact ofRatio_units s r

theorem value_mod {m n r : Magnitude} (hr : r.units = m.units % n.units) :
    r.value = m.value - n.value * ⌊m.value / n.value⌋ := by
  have hfloor : (⌊m.value / n.value⌋ : ℚ) = (m.units / n.units : ℕ) := by
    rw [Magnitude.value_div_value, Rat.floor_natCast_div_natCast]
    exact_mod_cast rfl
  have hdivision : (n.units * (m.units / n.units : ℕ) + r.units : ℚ) = m.units := by
    rw [hr]
    exact_mod_cast Nat.div_add_mod m.units n.units
  rw [hfloor, Magnitude.value, Magnitude.value, Magnitude.value, ← hdivision]
  ring

theorem value_rem (s t : Bool) {m n r : Magnitude} (hr : r.units = m.units % n.units) :
    (finite s r).value = (finite s m).value -
      (finite t n).value * truncation ((finite s m).value / (finite t n).value) := by
  have hquotient : 0 ≤ m.value / n.value := div_nonneg m.value_nonneg n.value_nonneg
  have hsign : (t ^^ (s ^^ t)) = s := by
    rw [Bool.xor_comm s t, ← Bool.xor_assoc, Bool.xor_self, Bool.false_xor]
  simp only [value_finite]
  rw [withSign_div, truncation_withSign hquotient, withSign_mul, hsign, ← withSign_sub,
    ← value_mod hr]

theorem abs_value_finite (s : Bool) (m : Magnitude) : |(finite s m).value| = m.value := by
  rw [value_finite, abs_withSign m.value_nonneg]

theorem units_ne_zero_of_value_ne_zero {s : Bool} {m : Magnitude} (h : (finite s m).value ≠ 0) :
    m.units ≠ 0 := by
  intro hzero
  apply h
  rw [value_finite, Magnitude.value, hzero, Nat.cast_zero, zero_div]
  cases s <;> simp only [withSign, neg_zero, ite_self]

theorem abs_value_rem_lt (s t : Bool) {m n r : Magnitude} (hn : n.units ≠ 0)
    (hr : r.units = m.units % n.units) : |(finite s r).value| < |(finite t n).value| := by
  rw [abs_value_finite, abs_value_finite, Magnitude.value_lt_value, hr]
  exact Nat.mod_lt _ (Nat.pos_of_ne_zero hn)

/-- **Remainders are exact.**  The remainder of finite numbers is what the dividend has beyond the
divisor times the integral part of the quotient, and has the sign of the dividend.  A finite number
is its own remainder by an infinity.  An infinity has no remainder, and nothing has one by zero. -/
theorem rem_exact (a b : Binary64) :
    (a.isFinite = true → b.isFinite = true → b.value ≠ 0 →
      (BinaryOp.rem.apply a b).IsExactly a.neg
        (a.value - b.value * truncation (a.value / b.value)) ∧
      |(BinaryOp.rem.apply a b).value| < |b.value| ∧
      ∃ k : ℤ, a.value - (BinaryOp.rem.apply a b).value = k * b.value) ∧
    (∀ t, a.isFinite = true → BinaryOp.rem.apply a (inf t) = a) ∧
    (∀ s, BinaryOp.rem.apply (inf s) b = nan) ∧
    ∀ t, BinaryOp.rem.apply a (zero t) = nan := by
  refine ⟨?_, ?_, ?_, ?_⟩
  · intro ha hb hne
    cases a with
    | nan => cases ha
    | inf s => cases ha
    | finite s m =>
      cases b with
      | nan => cases hb
      | inf t => cases hb
      | finite t n =>
        have hn := units_ne_zero_of_value_ne_zero hne
        obtain ⟨r, hrem, hr⟩ := rem_finite s t m hn
        have hvalue := value_rem s t hr
        rw [BinaryOp.apply, hrem]
        refine ⟨⟨⟨r, rfl⟩, hvalue⟩, abs_value_rem_lt s t hn hr,
          truncation ((finite s m).value / (finite t n).value), ?_⟩
        rw [hvalue, sub_sub_cancel, mul_comm]
  · intro t ha
    cases a with
    | nan => cases ha
    | inf s => cases ha
    | finite s m => rfl
  · intro s
    cases b <;> rfl
  · intro t
    cases a <;> rfl

/-- A quotient of more than two thousand bits leaves two units. -/
theorem rem_longQuotient :
    BinaryOp.rem.apply (finite true ⟨2 ^ 52, 2045, by decide⟩) (finite false ⟨3, 0, by decide⟩) =
        finite true ⟨2, 0, by decide⟩ ∧
      (finite false ⟨3, 0, by decide⟩).value ≠ 0 ∧
      (finite true ⟨2, 0, by decide⟩).value = (finite true ⟨2 ^ 52, 2045, by decide⟩).value -
        (finite false ⟨3, 0, by decide⟩).value *
          truncation ((finite true ⟨2 ^ 52, 2045, by decide⟩).value /
            (finite false ⟨3, 0, by decide⟩).value) := by
  have hrem : BinaryOp.rem.apply (finite true ⟨2 ^ 52, 2045, by decide⟩)
      (finite false ⟨3, 0, by decide⟩) = finite true ⟨2, 0, by decide⟩ := by decide +kernel
  have hne : (finite false ⟨3, 0, by decide⟩).value ≠ 0 :=
    div_ne_zero (by decide) cast_unitsPerOne_pos.ne'
  obtain ⟨⟨-, hvalue⟩, -⟩ := (rem_exact (finite true ⟨2 ^ 52, 2045, by decide⟩)
    (finite false ⟨3, 0, by decide⟩)).1 rfl rfl hne
  rw [hrem] at hvalue
  exact ⟨hrem, hne, hvalue⟩

end Binary64

end Calculator
