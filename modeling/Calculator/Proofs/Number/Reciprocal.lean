/-
  Calculator/Proofs/Number/Reciprocal.lean
  ========================================
  **Reciprocals and their squares.**  The reciprocal of a number is one rounding of
  the real reciprocal.  The reciprocal of the square is a power with the exponent
  minus two.  Such a power is computed exactly from the dyadic form of the base,
  however large it is, and then rounded once as well.

  So the one is an infinity up to `2 ^ -1024` and the other up to `2 ^ -512`.  The
  next number after `2 ^ -512` is greater by one part in `2 ^ 52`; its reciprocal,
  squared, is at most the magnitude before the greatest one, and to that one can be
  added without an overflow.
-/
import Calculator.Function
import Calculator.Proofs.Number.Accuracy
import Calculator.Proofs.Number.Power

namespace Calculator

/-! ### Dyadic numbers -/

namespace Dyadic

def value (d : Dyadic) : ℚ := d.odd * 2 ^ d.exponent

theorem value_reduce (count : Nat) (d : Dyadic) : (reduce count d).value = d.value := by
  induction count generalizing d with
  | zero => rfl
  | succ count ih =>
    rw [reduce]
    split
    · next heven =>
      have hodd : (d.odd : ℚ) = (d.odd / 2 : ℕ) * 2 := by
        exact_mod_cast (Nat.div_mul_cancel (Nat.dvd_of_mod_eq_zero heven)).symm
      rw [ih, value, value, hodd, zpow_add_one₀ (by norm_num)]
      ring
    · rfl

end Dyadic

namespace Magnitude

theorem value_toDyadic (m : Magnitude) : m.toDyadic.value = m.value := by
  obtain ⟨n, hn, hunits⟩ := exists_unitsPerOne_eq
  have hdyadic : m.toDyadic = .reduce 53 ⟨m.mant, (m.exp : Int) - 1074⟩ := rfl
  have hexp : (m.exp : Int) - 1074 = (m.exp : Int) - (n : Int) := by omega
  rw [hdyadic, Dyadic.value_reduce, Dyadic.value, hexp, zpow_sub₀ (by norm_num), zpow_natCast,
    zpow_natCast, value, units, hunits, Nat.cast_mul, Nat.cast_pow, Nat.cast_pow, Nat.cast_ofNat,
    mul_div_assoc]

theorem isNearest_nearestShifted? (s : Bool) {num den : Nat} (hden : 0 < den) (shift : Int) :
    Binary64.IsNearest s (num / (den * 2 ^ shift))
      (Binary64.ofMagnitude? s (nearestShifted? num den shift)) := by
  have hpow : (0 : ℚ) < 2 ^ shift.toNat := by positivity
  have hshift : (2 ^ shift : ℚ) = 2 ^ shift.toNat / 2 ^ (-shift).toNat := by
    rw [← zpow_natCast, ← zpow_natCast, ← zpow_sub₀ (by norm_num)]
    congr 1
    omega
  refine Binary64.isNearest_ofRatio s (Nat.mul_pos hden (Nat.two_pow_pos _)) ?_
  have hunits : (unitsPerOne : ℚ) ≠ 0 := cast_unitsPerOne_pos.ne'
  generalize unitsPerOne = n at hunits
  rw [hshift]
  push_cast
  field_simp

end Magnitude

namespace Binary64

/-! ### The reciprocal -/

variable {m : Magnitude}

theorem isNearest_recip (s : Bool) (h : m.units ≠ 0) :
    IsNearest s (1 / m.value) (recip (finite s m)) := by
  have hrecip : recip (finite s m) =
      ofRatio (false ^^ s) (Magnitude.one.units * unitsPerOne) m.units := if_neg h
  rw [hrecip, Bool.false_xor, Magnitude.units_one]
  refine isNearest_ofRatio s (Nat.pos_of_ne_zero h) ?_
  have hunits : (unitsPerOne : ℚ) ≠ 0 := cast_unitsPerOne_pos.ne'
  rw [Magnitude.value]
  generalize unitsPerOne = n at hunits
  push_cast
  field_simp

/-! ### The reciprocal of the square -/

theorem negate_two : two.negate = finite true ⟨2 ^ 52, 1023, by decide⟩ := by decide +kernel

theorem exactPow?_two (m : Magnitude) :
    m.exactPow? true ⟨2 ^ 52, 1023, by decide⟩ =
      some (Magnitude.nearestShifted? 1 (m.toDyadic.odd ^ 2) (m.toDyadic.exponent * 2)) := by
  have htwo : Dyadic.reduce 53 ⟨2 ^ 52, ((1023 : Nat) : Int) - 1074⟩ = ⟨1, 1⟩ := rfl
  rw [Magnitude.exactPow?]
  simp only [htwo]
  rfl

theorem standardPow_one {t : Bool} {n : Magnitude} (hzero : n.units ≠ 0) :
    standardPow (one false) (finite t n) = one false :=
  (if_neg hzero).trans (if_pos rfl)

/-- The even exponent leaves no sign. -/
theorem recipSquare_finite (s : Bool) (h : m.units ≠ 0) (hone : finite s m ≠ one false) :
    recipSquare (finite s m) = ofMagnitude? false
      (Magnitude.nearestShifted? 1 (m.toDyadic.odd ^ 2) (m.toDyadic.exponent * 2)) := by
  have htwo : Magnitude.units ⟨2 ^ 52, 1023, by decide⟩ ≠ 0 := by decide +kernel
  have hwhole : Magnitude.isWhole ⟨2 ^ 52, 1023, by decide⟩ = true := by decide +kernel
  have heven : isOdd (finite true ⟨2 ^ 52, 1023, by decide⟩) = false := by decide +kernel
  rw [recipSquare, pow_eq_standardPow, negate_two, standardPow_finite htwo hone, if_neg h, hwhole,
    heven, Bool.not_true, Bool.and_false, if_neg Bool.false_ne_true,
    Magnitude.pow?, exactPow?_two, Option.getD_some]

theorem isNearest_recipSquare (s : Bool) (h : m.units ≠ 0) :
    IsNearest false (1 / m.value ^ 2) (recipSquare (finite s m)) := by
  by_cases hone : finite s m = one false
  · have htwo : Magnitude.units ⟨2 ^ 52, 1023, by decide⟩ ≠ 0 := by decide +kernel
    have hpow : recipSquare (one false) = one false := by
      rw [recipSquare, pow_eq_standardPow, negate_two, standardPow_one htwo]
    obtain ⟨rfl, rfl⟩ := finite.inj hone
    have hself := Magnitude.one.isNearest_value false
    rw [hone, hpow, Magnitude.value_one, one_pow, one_div_one]
    rwa [Magnitude.value_one] at hself
  · have hodd : 0 < m.toDyadic.odd := by
      apply Nat.pos_of_ne_zero
      intro hzero
      have hvalue := m.value_toDyadic
      rw [Dyadic.value, hzero, Nat.cast_zero, zero_mul] at hvalue
      exact (Magnitude.value_pos h).ne hvalue
    have hnearest := @Magnitude.isNearest_nearestShifted? false 1 (m.toDyadic.odd ^ 2)
      (Nat.pow_pos hodd) (m.toDyadic.exponent * 2)
    have hsquare : (1 / m.value ^ 2 : ℚ) =
        (1 : ℕ) / ((m.toDyadic.odd ^ 2 : ℕ) * 2 ^ (m.toDyadic.exponent * 2)) := by
      rw [← m.value_toDyadic, Dyadic.value, mul_pow, zpow_mul, zpow_two, Nat.cast_one,
        Nat.cast_pow, pow_two (2 ^ m.toDyadic.exponent : ℚ)]
    rw [recipSquare_finite s h hone, hsquare]
    exact hnearest

/-! ### Infinities -/

theorem recip_inf (s : Bool) : recip (inf s) = zero s := by cases s <;> rfl

theorem recipSquare_inf (s : Bool) : recipSquare (inf s) = zero false := by
  rw [recipSquare, pow_eq_standardPow, negate_two]
  cases s <;> decide +kernel

/-! ### Overflow -/

theorem recip_eq_inf (s : Bool) (h : m.units ≠ 0) (hle : m.value ≤ 1 / 2 ^ 1024) :
    recip (finite s m) = inf s := by
  have hscale : (1 / 2 ^ 1024 : ℚ) = 1 / (2 ^ 512) ^ 2 := by rw [← pow_mul]
  rw [hscale] at hle
  rw [isNearest_inf_iff (isNearest_recip s h)]
  exact overflowThreshold_le_sq.trans
    ((le_one_div (Magnitude.value_pos h) (by positivity)).mp hle)

theorem exists_recip (s : Bool) (hlt : 1 / 2 ^ 1024 < m.value) :
    ∃ a : Magnitude, recip (finite s m) = finite s a := by
  have hpos : 0 < m.value := lt_trans (by positivity) hlt
  have hrecip := isNearest_recip s (Magnitude.units_ne_zero hpos)
  generalize recip (finite s m) = y at *
  cases hrecip with
  | @finite a _ _ => exact ⟨a, rfl⟩
  | inf hle =>
    -- The reciprocal of the next magnitude is below the threshold.
    obtain ⟨b, hb⟩ := @Magnitude.exists_units_eq_mul 1 50 (by decide) (by decide)
    have hbvalue : b.value = 1 / 2 ^ 1024 :=
      Magnitude.value_of_units_eq (hb.trans (Nat.one_mul _)) rfl
    rw [← hbvalue, Magnitude.value_lt_value, hb] at hlt
    have hunits : (2 ^ 50 + 1 : ℚ) ≤ m.units := by exact_mod_cast hlt
    have hscale : (unitsPerOne : ℚ) ≠ 0 := cast_unitsPerOne_pos.ne'
    rw [le_div_iff₀ hpos, overflowThreshold_eq, Magnitude.value, mul_div_assoc', mul_assoc,
      mul_div_cancel_left₀ _ hscale] at hle
    linarith

theorem recipSquare_eq_inf (s : Bool) (h : m.units ≠ 0) (hle : m.value ≤ 1 / 2 ^ 512) :
    recipSquare (finite s m) = inf false := by
  rw [isNearest_inf_iff (isNearest_recipSquare s h)]
  refine overflowThreshold_le_sq.trans ?_
  rw [← one_div_pow]
  gcongr
  exact (le_one_div (Magnitude.value_pos h) (by positivity)).mp hle

/-- The greatest magnitude is more than one above the one before it. -/
theorem exists_greatest : ∃ g c : Magnitude,
    g.value = (1 - 1 / 2 ^ 52) / (1 / 2 ^ 512) ^ 2 ∧ g.value + 1 ≤ c.value := by
  obtain ⟨n, hn, hunits⟩ := Magnitude.exists_unitsPerOne_eq
  have hpos : (0 : ℚ) < unitsPerOne := cast_unitsPerOne_pos
  obtain ⟨g, hg⟩ := @Magnitude.exists_units_eq_mul (2 ^ 53 - 2) 2045 (by decide) (by decide)
  obtain ⟨c, hc⟩ := @Magnitude.exists_units_eq_mul (2 ^ 53 - 1) 2045 (by decide) (by decide)
  refine ⟨g, c, ?_, ?_⟩
  · have hsquare : ((1 / 2 ^ 512) ^ 2 : ℚ) = 1 / (2 ^ 53 * 2 ^ 971) := by
      rw [one_div_pow, ← pow_mul, ← pow_add]
    have hstep : ((2 ^ 2045 : ℕ) : ℚ) = 2 ^ 971 * unitsPerOne := by
      rw [hunits, hn, Nat.cast_pow, Nat.cast_pow, Nat.cast_ofNat, ← pow_add]
    rw [Magnitude.value, hg, Nat.cast_mul, hstep, hsquare, ← mul_assoc,
      mul_div_cancel_right₀ _ hpos.ne', div_div_eq_mul_div, div_one, ← mul_assoc]
    norm_num
  · have hpow : ∀ e, n ≤ e → 2 ^ n ≤ 2 ^ e := fun e => Nat.pow_le_pow_right Nat.two_pos
    have hstep := hpow 2045 (by omega)
    rw [← Magnitude.value_one, ← Magnitude.value_add_value_le, hg, hc, Magnitude.units_one, hunits]
    generalize 2 ^ n = unit at *
    generalize 2 ^ 2045 = step at *
    omega

theorem one_div_sq_le {a v : ℚ} (ha : 0 < a) (h : a * (1 + 1 / 2 ^ 52) ≤ v) :
    1 / v ^ 2 ≤ (1 - 1 / 2 ^ 52) / a ^ 2 := by
  calc 1 / v ^ 2 ≤ 1 / (a * (1 + 1 / 2 ^ 52)) ^ 2 := by gcongr
    _ = 1 / (1 + 1 / 2 ^ 52) ^ 2 / a ^ 2 := by rw [mul_pow, mul_comm, div_div]
    _ ≤ (1 - 1 / 2 ^ 52) / a ^ 2 := by
      apply div_le_div_of_nonneg_right _ (by positivity)
      norm_num

theorem exists_recipSquare (s : Bool) (hlt : 1 / 2 ^ 512 < m.value) :
    ∃ p c : Magnitude, recipSquare (finite s m) = finite false p ∧
      p.IsNearest (1 / m.value ^ 2) ∧ p.value + 1 ≤ c.value := by
  have hpos : 0 < m.value := lt_trans (by positivity) hlt
  obtain ⟨a, hmant, ha⟩ : ∃ a : Magnitude, a.mant = 2 ^ 52 ∧ a.value = 1 / 2 ^ 512 :=
    ⟨⟨2 ^ 52, 510, by decide⟩, rfl, Magnitude.value_of_mant_eq rfl rfl⟩
  obtain ⟨g, c, hg, hgc⟩ := exists_greatest
  have hgap : 1 / 2 ^ 512 * (1 + 1 / 2 ^ 52) ≤ m.value := by
    rw [← ha, Magnitude.value_lt_value] at hlt
    rw [← ha]
    exact Magnitude.mul_le_value hmant hlt
  have hsmall := one_div_sq_le (by positivity) hgap
  rw [← hg] at hsmall
  obtain ⟨p, hp, hnearest, hpg⟩ :=
    (isNearest_recipSquare s (Magnitude.units_ne_zero hpos)).exists_finite hsmall
  have hpg' : p.value ≤ g.value := Magnitude.value_le_value.mpr hpg
  exact ⟨p, c, hp, hnearest, by linarith⟩

end Binary64

end Calculator
