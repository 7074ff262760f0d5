/-
  Calculator/Proofs/Number/SquareRoot.lean
  ========================================
  **Square roots.**  The integer root is the greatest integer whose power is not
  above the radicand: if it is for a part of the digits, twice that root or one more
  is for the next ones.

  The number that is rounded to a square root is the integer root in units, with a
  half added where the root is not exact.  It lies on the same side of every
  magnitude as the root itself, and that is all that rounding asks of it.
-/
import Calculator.Number.Root
import Calculator.Proofs.Number.Accuracy
import Mathlib.Data.Nat.Sqrt

namespace Calculator

/-! ### Integer roots -/

theorem floorRoot_spec {degree : Nat} (hdegree : degree ≠ 0) {bits n : Nat}
    (h : n < (2 ^ bits) ^ degree) :
    floorRoot degree bits n ^ degree ≤ n ∧ n < (floorRoot degree bits n + 1) ^ degree := by
  induction bits generalizing n with
  | zero =>
    rw [Nat.pow_zero, Nat.one_pow] at h
    rw [floorRoot, Nat.zero_pow (Nat.pos_of_ne_zero hdegree), Nat.zero_add, Nat.one_pow]
    exact ⟨Nat.zero_le n, h⟩
  | succ bits ih =>
    have hpos : 0 < 2 ^ degree := Nat.two_pow_pos degree
    have hpart : n / 2 ^ degree < (2 ^ bits) ^ degree := by
      rw [Nat.div_lt_iff_lt_mul hpos, ← Nat.mul_pow, ← Nat.pow_succ]
      exact h
    obtain ⟨hlow, hhigh⟩ := ih hpart
    rw [floorRoot]
    generalize floorRoot degree bits (n / 2 ^ degree) = r at hlow hhigh
    have hlow' : (2 * r) ^ degree ≤ n := by
      rw [Nat.mul_comm, Nat.mul_pow]
      exact (Nat.le_div_iff_mul_le hpos).mp hlow
    have hhigh' : n < (2 * r + 1 + 1) ^ degree := by
      have hdouble : 2 * r + 1 + 1 = (r + 1) * 2 := by omega
      rw [hdouble, Nat.mul_pow]
      exact (Nat.div_lt_iff_lt_mul hpos).mp hhigh
    split
    · next hnext => exact ⟨hnext, hhigh'⟩
    · next hnext => exact ⟨hlow', Nat.lt_of_not_le hnext⟩

theorem floorSqrt_eq (n : Nat) : floorSqrt n = n.sqrt := by
  have hbits : n < (2 ^ (n.log2 / 2 + 1)) ^ 2 := by
    rw [← Nat.pow_mul]
    exact Nat.lt_log2_self.trans_le (Nat.pow_le_pow_right (by decide) (by omega))
  obtain ⟨hlow, hhigh⟩ := floorRoot_spec (by decide) hbits
  rw [Nat.pow_two] at hlow hhigh
  exact Nat.eq_sqrt.mpr ⟨hlow, hhigh⟩

namespace Binary64

/-! ### Square roots of numbers -/

/-- What is rounded to the square root of a number of half units: the root, or a half above the
root where it is not exact. -/
def markedRoot (n : Nat) : Nat := if n.sqrt * n.sqrt = n then 2 * n.sqrt else 2 * n.sqrt + 1

theorem markedRoot_le {n d : Nat} (h : n ≤ d * d) : markedRoot n ≤ 2 * d := by
  have hle : n.sqrt ≤ d := (Nat.sqrt_le_sqrt h).trans_eq (Nat.sqrt_eq d)
  unfold markedRoot
  split
  · omega
  · next hinexact =>
    have hne : n.sqrt ≠ d := by
      rintro rfl
      exact hinexact (Nat.le_antisymm (Nat.sqrt_le n) h)
    omega

theorem le_markedRoot {n d : Nat} (h : d * d ≤ n) : 2 * d ≤ markedRoot n := by
  have hle : d ≤ n.sqrt := Nat.le_sqrt.mpr h
  unfold markedRoot
  split <;> omega

theorem sqrt_finite {m : Magnitude} (h : m.units ≠ 0) :
    sqrt (finite false m) = ofRatio false (markedRoot (m.units * unitsPerOne)) 2 := by
  rw [sqrt, if_neg h, if_neg Bool.false_ne_true]
  dsimp only
  rw [floorSqrt_eq]
  rfl

theorem value_le_sq_iff {m d : Magnitude} :
    m.value ≤ d.value ^ 2 ↔ m.units * unitsPerOne ≤ d.units * d.units := by
  have hpos : (0 : ℚ) < unitsPerOne := cast_unitsPerOne_pos
  rw [Magnitude.value, Magnitude.value, div_pow, div_le_div_iff₀ hpos (by positivity), pow_two,
    pow_two, ← mul_assoc, mul_le_mul_iff_left₀ hpos]
  exact_mod_cast Iff.rfl

theorem sq_le_value_iff {m d : Magnitude} :
    d.value ^ 2 ≤ m.value ↔ d.units * d.units ≤ m.units * unitsPerOne := by
  have hpos : (0 : ℚ) < unitsPerOne := cast_unitsPerOne_pos
  rw [Magnitude.value, Magnitude.value, div_pow, div_le_div_iff₀ (by positivity) hpos, pow_two,
    pow_two, ← mul_assoc, mul_le_mul_iff_left₀ hpos]
  exact_mod_cast Iff.rfl

theorem value_le_half {d : Magnitude} {k : Nat} (h : 2 * d.units ≤ k) :
    d.value ≤ k / 2 / unitsPerOne := by
  have hcast : (2 * d.units : ℚ) ≤ k := by exact_mod_cast h
  exact div_le_div_of_nonneg_right (by linarith) cast_unitsPerOne_pos.le

theorem half_le_value {d : Magnitude} {k : Nat} (h : k ≤ 2 * d.units) :
    (k / 2 / unitsPerOne : ℚ) ≤ d.value := by
  have hcast : (k : ℚ) ≤ 2 * d.units := by exact_mod_cast h
  exact div_le_div_of_nonneg_right (by linarith) cast_unitsPerOne_pos.le

theorem exists_value_le_sq (m : Magnitude) : ∃ d : Magnitude, m.value ≤ d.value ^ 2 := by
  rcases le_total 1 m.value with hle | hle
  · exact ⟨m, le_self_pow₀ hle (by decide)⟩
  · refine ⟨.one, hle.trans_eq ?_⟩
    rw [Magnitude.value_one, one_pow]

/-- The square root of a magnitude is a magnitude, and every other one is on the same side of it
as of the real root. -/
theorem exists_sqrt (m : Magnitude) :
    ∃ r : Magnitude, sqrt (finite false m) = finite false r ∧
      (∀ d : Magnitude, m.value ≤ d.value ^ 2 → r.units ≤ d.units) ∧
      ∀ d : Magnitude, d.value ^ 2 ≤ m.value → d.units ≤ r.units := by
  by_cases hzero : m.units = 0
  · have hroot : sqrt (finite false m) = finite false m := by rw [sqrt, if_pos hzero]
    refine ⟨m, hroot, ?_, ?_⟩
    · intro d _
      rw [hzero]
      exact Nat.zero_le _
    · intro d hd
      rw [sq_le_value_iff, hzero, Nat.zero_mul, Nat.le_zero, mul_self_eq_zero] at hd
      rw [hd]
      exact Nat.zero_le _
  · have hnearest : IsNearest false (markedRoot (m.units * unitsPerOne) / 2 / unitsPerOne)
        (sqrt (finite false m)) := by
      rw [sqrt_finite hzero]
      exact isNearest_ofRatio _ Nat.two_pos (by rw [Nat.cast_two])
    have habove : ∀ d : Magnitude, m.value ≤ d.value ^ 2 →
        (markedRoot (m.units * unitsPerOne) / 2 / unitsPerOne : ℚ) ≤ d.value :=
      fun d hd => half_le_value (markedRoot_le (value_le_sq_iff.mp hd))
    obtain ⟨c, hc⟩ := exists_value_le_sq m
    obtain ⟨r, hr, hrnearest, -⟩ := hnearest.exists_finite (habove c hc)
    refine ⟨r, hr, ?_, ?_⟩
    · intro d hd
      exact hrnearest.units_le (habove d hd)
    · intro d hd
      exact hrnearest.le_units (value_le_half (le_markedRoot (sq_le_value_iff.mp hd)))

theorem sqrt_of_isNearest {q : ℚ} {x : Binary64} (h : IsNearest false q x) :
    sqrt x = inf false ∨ ∃ r : Magnitude, sqrt x = finite false r := by
  cases h with
  | inf _ => exact Or.inl rfl
  | @finite d _ _ =>
    obtain ⟨r, hr, -⟩ := exists_sqrt d
    exact Or.inr ⟨r, hr⟩

theorem exists_sqrt_le (d : Magnitude) :
    ∃ r c : Magnitude, sqrt (finite false d) = finite false r ∧ c.value = 2 ^ 512 ∧
      r.units ≤ c.units ∧ (1 ≤ d.value → 1 ≤ r.value) := by
  obtain ⟨c, hc⟩ := @Magnitude.exists_value_two_pow 512 (by decide)
  obtain ⟨r, hr, hle, hge⟩ := exists_sqrt d
  refine ⟨r, c, hr, hc, hle c ?_, ?_⟩
  · rw [hc]
    exact d.value_lt_overflowThreshold.le.trans overflowThreshold_le_sq
  · intro hone
    rw [← Magnitude.value_one, Magnitude.value_le_value]
    apply hge
    rw [Magnitude.value_one, one_pow]
    exact hone

end Binary64

end Calculator
