/-
  Calculator/Proofs/Number/InverseHyperbolic.lean
  ===============================================
  **The domains of the inverse hyperbolic secant and cosecant.**  Both are a
  logarithm of the reciprocal and a root, `1/x + √(1/x² - 1)` and
  `1/x + √(1/x² + 1)`.  For a positive number nothing cancels in these sums.  For a
  negative one the real root is less than the magnitude of the reciprocal in the one
  and greater in the other, so that the logarithm is NaN in the one and finite in the
  other if the rounded terms keep that order.

  Down to `2 ^ -24` they keep it: every rounding moves its result by at most one
  part in `2 ^ 53`, and the one under the root is a larger part of the square.  From
  `2 ^ -28` on the square absorbs the one.  There the two roots are the same number,
  hence so are the two functions, and a NaN in the one is not a finite number in the
  other.  Up to `2 ^ -512` the square overflows, and up to `2 ^ -1024` the reciprocal
  as well.
-/
import Calculator.Proofs.Number.Logarithm
import Calculator.Proofs.Number.Reciprocal
import Calculator.Proofs.Number.SquareRoot

namespace Calculator

namespace Binary64

/-- The root in the inverse hyperbolic secant. -/
def secantRoot (x : Binary64) : Binary64 := sqrt (sub (recipSquare x) (one false))

/-- The root in the inverse hyperbolic cosecant. -/
def cosecantRoot (x : Binary64) : Binary64 := sqrt (add (recipSquare x) (one false))

theorem asech_eq (x : Binary64) : asech x = ln (add (recip x) (secantRoot x)) := rfl

theorem acsch_eq (x : Binary64) : acsch x = ln (add (recip x) (cosecantRoot x)) := rfl

/-! ### The logarithm of the sum -/

section Sum

variable {a b : Magnitude}

theorem ln_add_positive {c : Magnitude} (hb : b.units ≠ 0) (hle : a.units + b.units ≤ c.units) :
    (ln (add (finite false a) (finite false b))).isFinite = true := by
  have hsum : add (finite false a) (finite false b) = ofUnits false (a.units + b.units) := rfl
  obtain ⟨d, hd, hne, -⟩ := @exists_ofUnits false (a.units + b.units) (by omega) c (by omega)
  rw [decide_eq_false (by omega)] at hd
  rw [hsum, hd]
  exact isFinite_ln hne

theorem add_opposite (a b : Magnitude) :
    add (finite true a) (finite false b) = ofUnits false (b.units - a.units) := by
  rw [Int.sub_eq_add_neg, Int.add_comm]
  rfl

theorem ln_add_of_lt (h : a.units < b.units) :
    (ln (add (finite true a) (finite false b))).isFinite = true := by
  obtain ⟨d, hd, hne⟩ := @exists_sub_of_gt false b a h
  rw [add_opposite, hd]
  exact isFinite_ln hne

theorem ln_add_of_gt (h : b.units < a.units) :
    ln (add (finite true a) (finite false b)) = nan := by
  obtain ⟨d, hd, hne⟩ := @exists_sub_of_lt false b a h
  rw [add_opposite, hd]
  exact ln_negative hne

theorem ln_add_of_eq (h : a.units = b.units) :
    ln (add (finite true a) (finite false b)) = inf true := by
  rw [add_opposite, sub_of_eq h.symm]
  exact ln_zero false

theorem ln_add_eq_nan_iff :
    ln (add (finite true a) (finite false b)) = nan ↔ b.units < a.units := by
  rcases Nat.lt_trichotomy a.units b.units with hlt | heq | hgt
  · refine iff_of_false ?_ hlt.not_gt
    intro hnan
    have hfinite := ln_add_of_lt hlt
    rw [hnan] at hfinite
    cases hfinite
  · rw [ln_add_of_eq heq]
    exact iff_of_false Binary64.noConfusion heq.not_gt
  · exact iff_of_true (ln_add_of_gt hgt) hgt

theorem isFinite_ln_add_iff :
    (ln (add (finite true a) (finite false b))).isFinite = true ↔ a.units < b.units := by
  rcases Nat.lt_trichotomy a.units b.units with hlt | heq | hgt
  · exact iff_of_true (ln_add_of_lt hlt) hlt
  · rw [ln_add_of_eq heq]
    exact iff_of_false Bool.noConfusion heq.not_lt
  · rw [ln_add_of_gt hgt]
    exact iff_of_false Bool.noConfusion hgt.not_gt

end Sum

/-! ### One less and one more -/

section One

variable {p : Magnitude}

theorem sub_one (p : Magnitude) :
    sub (finite false p) (one false) = ofUnits false (p.units - Magnitude.one.units) := by
  rw [Int.sub_eq_add_neg]
  rfl

theorem sqrt_sub_one_of_lt (h : p.units < Magnitude.one.units) :
    sqrt (sub (finite false p) (one false)) = nan := by
  obtain ⟨d, hd, hne⟩ := @exists_sub_of_lt false _ _ h
  rw [sub_one, hd, sqrt, if_neg hne, if_pos rfl]

theorem isNearest_sub_one (h : Magnitude.one.units ≤ p.units) :
    IsNearest false (p.value - 1) (sub (finite false p) (one false)) := by
  have hvalue : ((p.units - Magnitude.one.units : ℕ) : ℚ) / unitsPerOne = p.value - 1 := by
    rw [Nat.cast_sub h, sub_div, ← Magnitude.value, ← Magnitude.value, Magnitude.value_one]
  rw [sub_one, ← Int.ofNat_sub h, ← hvalue]
  exact isNearest_ofUnits_natCast _

theorem isNearest_add_one (p : Magnitude) :
    IsNearest false (p.value + 1) (add (finite false p) (one false)) := by
  have hsum : add (finite false p) (one false) =
      ofUnits false ((p.units + Magnitude.one.units : ℕ) : ℤ) := rfl
  have hvalue : ((p.units + Magnitude.one.units : ℕ) : ℚ) / unitsPerOne = p.value + 1 := by
    rw [Nat.cast_add, add_div, ← Magnitude.value, ← Magnitude.value, Magnitude.value_one]
  rw [hsum, ← hvalue]
  exact isNearest_ofUnits_natCast _

/-- A large magnitude absorbs the one. -/
theorem sub_one_eq_add_one (hlarge : 2 ^ 55 ≤ p.value) {c : Magnitude}
    (hle : p.value + 1 ≤ c.value) :
    sub (finite false p) (one false) = add (finite false p) (one false) := by
  have hlt := hle.trans_lt c.value_lt_overflowThreshold
  have hone : Magnitude.one.units ≤ p.units := by
    rw [← Magnitude.value_le_value, Magnitude.value_one]
    linarith
  have hsub : sub (finite false p) (one false) = finite false p := by
    refine (isNearest_sub_one hone).unique (.finite (by linarith) ?_)
    apply Magnitude.isNearest_of_abs_sub_le hlarge
    rw [sub_sub_cancel_left, abs_neg, abs_one]
  have hadd : add (finite false p) (one false) = finite false p := by
    refine (isNearest_add_one p).unique (.finite hlt ?_)
    apply Magnitude.isNearest_of_abs_sub_le hlarge
    rw [add_sub_cancel_left, abs_one]
  rw [hsub, hadd]

end One

/-! ### What the roots can be -/

variable {m : Magnitude}

theorem secantRoot_cases (s : Bool) (h : m.units ≠ 0) :
    secantRoot (finite s m) = nan ∨ secantRoot (finite s m) = inf false ∨
      ∃ b : Magnitude, secantRoot (finite s m) = finite false b := by
  rw [secantRoot]
  have hsquare := isNearest_recipSquare s h
  generalize recipSquare (finite s m) = x at *
  cases hsquare with
  | inf _ => exact Or.inr (Or.inl rfl)
  | @finite p _ _ =>
    rcases lt_or_ge p.units Magnitude.one.units with hlt | hge
    · exact Or.inl (sqrt_sub_one_of_lt hlt)
    · exact Or.inr (sqrt_of_isNearest (isNearest_sub_one hge))

theorem cosecantRoot_cases (s : Bool) (h : m.units ≠ 0) :
    cosecantRoot (finite s m) = inf false ∨
      ∃ b : Magnitude, cosecantRoot (finite s m) = finite false b := by
  rw [cosecantRoot]
  have hsquare := isNearest_recipSquare s h
  generalize recipSquare (finite s m) = x at *
  cases hsquare with
  | inf _ => exact Or.inl rfl
  | @finite p _ _ => exact sqrt_of_isNearest (isNearest_add_one p)

/-- The secant of a negative number is NaN where the reciprocal outweighs the root. -/
theorem asech_eq_nan_iff (h : m.units ≠ 0) :
    asech (finite true m) = nan ↔
      ¬((recip (finite true m)).isFinite = true ∧
        AtMost (recip (finite true m)).negate (secantRoot (finite true m))) := by
  rw [asech_eq]
  have hrecip := isNearest_recip true h
  have hroot := secantRoot_cases true h
  generalize recip (finite true m) = y at *
  generalize secantRoot (finite true m) = r at *
  cases hrecip with
  | inf _ =>
    refine iff_of_true ?_ ?_
    · rcases hroot with rfl | rfl | ⟨b, rfl⟩ <;> rfl
    · rintro ⟨hfinite, -⟩
      cases hfinite
  | @finite a _ _ =>
    rcases hroot with rfl | rfl | ⟨b, rfl⟩
    · refine iff_of_true rfl ?_
      rintro ⟨-, hatMost⟩
      exact hatMost
    · exact iff_of_false Binary64.noConfusion (not_not_intro ⟨rfl, trivial⟩)
    · have hatMost : AtMost (finite true a).negate (finite false b) ↔ a.units ≤ b.units :=
        Int.ofNat_le
      have hfinite : (finite true a).isFinite = true := rfl
      rw [ln_add_eq_nan_iff, hatMost, and_iff_right hfinite, not_le]

/-- The cosecant of a negative number is finite where the root outweighs the reciprocal. -/
theorem isFinite_acsch_iff (h : m.units ≠ 0) :
    (acsch (finite true m)).isFinite = true ↔
      (recip (finite true m)).isFinite = true ∧ (cosecantRoot (finite true m)).isFinite = true ∧
        ¬AtMost (cosecantRoot (finite true m)) (recip (finite true m)).negate := by
  rw [acsch_eq]
  have hrecip := isNearest_recip true h
  have hroot := cosecantRoot_cases true h
  generalize recip (finite true m) = y at *
  generalize cosecantRoot (finite true m) = r at *
  cases hrecip with
  | inf _ =>
    refine iff_of_false ?_ ?_
    · rcases hroot with rfl | ⟨b, rfl⟩ <;> exact Bool.noConfusion
    · rintro ⟨hfinite, -⟩
      cases hfinite
  | @finite a _ _ =>
    rcases hroot with rfl | ⟨b, rfl⟩
    · refine iff_of_false Bool.noConfusion ?_
      rintro ⟨-, hfinite, -⟩
      cases hfinite
    · have hatMost : AtMost (finite false b) (finite true a).negate ↔ b.units ≤ a.units :=
        Int.ofNat_le
      have hrecip : (finite true a).isFinite = true := rfl
      have hroot : (finite false b).isFinite = true := rfl
      rw [isFinite_ln_add_iff, hatMost, and_iff_right hrecip, and_iff_right hroot, not_le]

/-! ### Beyond one -/

theorem asech_inf (s : Bool) : asech (inf s) = nan := by
  have hlt : Magnitude.zero.units < Magnitude.one.units := by
    rw [units_zero, Magnitude.units_one]
    exact unitsPerOne_pos
  have hroot : secantRoot (inf s) = nan := by
    rw [secantRoot, recipSquare_inf]
    exact sqrt_sub_one_of_lt hlt
  rw [asech_eq, hroot, recip_inf]
  rfl

/-- Beyond one the radicand is negative. -/
theorem secantRoot_of_one_lt (s : Bool) (h : 1 < m.value) : secantRoot (finite s m) = nan := by
  have hone : Magnitude.one.units ≠ 0 := by
    rw [Magnitude.units_one]
    exact unitsPerOne_pos.ne'
  obtain ⟨d, hdlt, hd⟩ := Magnitude.exists_previous hone
  rw [Magnitude.value_one, max_self] at hd
  have hgap : Magnitude.one.value * (1 + 1 / 2 ^ 52) ≤ m.value := by
    apply Magnitude.mul_le_value rfl
    rwa [← Magnitude.value_lt_value, Magnitude.value_one]
  rw [Magnitude.value_one] at hgap
  have hsmall := one_div_sq_le one_pos hgap
  rw [one_pow, div_one] at hsmall
  have hzero := Magnitude.units_ne_zero (one_pos.trans h)
  obtain ⟨p, hp, -, hple⟩ := (isNearest_recipSquare s hzero).exists_finite (hsmall.trans hd)
  rw [secantRoot, hp]
  exact sqrt_sub_one_of_lt (hple.trans_lt hdlt)

theorem asech_of_one_lt (s : Bool) (h : 1 < m.value) : asech (finite s m) = nan := by
  have hrecip := isNearest_recip s (Magnitude.units_ne_zero (one_pos.trans h))
  rw [asech_eq, secantRoot_of_one_lt s h]
  generalize recip (finite s m) = y at *
  cases hrecip <;> rfl

/-! ### Where nothing cancels -/

section Far

variable {y : ℚ}

theorem sq_le_of_le (hnonneg : 0 ≤ y) (hle : y ≤ 2 ^ 24) : y ^ 2 ≤ 2 ^ 48 := by
  calc y ^ 2 ≤ (2 ^ 24) ^ 2 := by gcongr
    _ = 2 ^ 48 := by norm_num

/-- The roundings of a reciprocal `r` with the magnitude `r'` before it, of its square `p` and of
the square less one `d`. -/
theorem sub_one_le_sq {r r' p d : ℚ} (hlow : 1 ≤ y) (hhigh : y ≤ 2 ^ 24)
    (hr : y - y / 2 ^ 53 ≤ r) (hr' : r - r / 2 ^ 52 ≤ r') (hp : p ≤ y ^ 2 + y ^ 2 / 2 ^ 53)
    (hd : d ≤ p - 1 + p / 2 ^ 53) : d ≤ r' ^ 2 := by
  have hbelow : y * (1 - 3 / 2 ^ 53) ≤ r' := by
    have hscaled : (y - y / 2 ^ 53) * (1 - 1 / 2 ^ 52) ≤ r * (1 - 1 / 2 ^ 52) := by gcongr
    linarith
  have hsquare : y ^ 2 ≤ 2 ^ 48 := sq_le_of_le (by linarith) hhigh
  calc d ≤ p * (1 + 1 / 2 ^ 53) - 1 := by linarith
    _ ≤ y ^ 2 * (1 + 1 / 2 ^ 53) * (1 + 1 / 2 ^ 53) - 1 := by
      gcongr
      linarith
    _ ≤ y ^ 2 * (1 - 3 / 2 ^ 53) ^ 2 := by linarith
    _ = (y * (1 - 3 / 2 ^ 53)) ^ 2 := by ring
    _ ≤ r' ^ 2 := by gcongr

/-- The same with the magnitude after the reciprocal and with the square and one; the errors are
parts of a bound `b` that is not less than one. -/
theorem sq_le_add_one {b r r' p d : ℚ} (hpos : 0 ≤ y) (hyb : y ≤ b) (hlow : 1 ≤ b)
    (hhigh : b ≤ 2 ^ 24) (hr : r ≤ y + b / 2 ^ 53) (hr' : r' ≤ r + max r 1 / 2 ^ 52)
    (hnonneg : 0 ≤ r') (hp : y ^ 2 - b ^ 2 / 2 ^ 53 ≤ p) (hd : p + 1 - (p + 1) / 2 ^ 53 ≤ d) :
    r' ^ 2 ≤ d := by
  have hmax : max r 1 ≤ b + b / 2 ^ 53 := max_le (by linarith) (by linarith)
  have habove : r' ≤ y + 4 * b / 2 ^ 53 := by linarith
  have hbsquare : b ^ 2 ≤ 2 ^ 48 := sq_le_of_le (by linarith) hhigh
  have hysquare : y ^ 2 ≤ b ^ 2 := by gcongr
  have hproduct : y * b ≤ b ^ 2 := by
    rw [pow_two]
    gcongr
  have hbpos : 0 ≤ b ^ 2 := by positivity
  calc r' ^ 2 ≤ (y + 4 * b / 2 ^ 53) ^ 2 := by gcongr
    _ = y ^ 2 + 8 / 2 ^ 53 * (y * b) + 16 / 2 ^ 106 * b ^ 2 := by ring
    _ ≤ (y ^ 2 - b ^ 2 / 2 ^ 53 + 1) * (1 - 1 / 2 ^ 53) := by linarith
    _ ≤ (p + 1) * (1 - 1 / 2 ^ 53) := by gcongr
    _ = p + 1 - (p + 1) / 2 ^ 53 := by ring
    _ ≤ d := hd

/-- A reciprocal `r` that is not too large, and its square `p`, each rounded once. -/
theorem exists_recip_recipSquare (s : Bool) (hlow : 1 / 2 ^ 24 ≤ m.value) (hy : y = 1 / m.value) :
    0 ≤ y ∧ y ≤ 2 ^ 24 ∧ ∃ r p : Magnitude,
      recip (finite s m) = finite s r ∧ recipSquare (finite s m) = finite false p ∧
      r.IsNearest y ∧ p.IsNearest (y ^ 2) ∧
      |y - r.value| ≤ max y 1 / 2 ^ 53 ∧ |y ^ 2 - p.value| ≤ max (y ^ 2) 1 / 2 ^ 53 := by
  have hpos : 0 < m.value := lt_of_lt_of_le (by norm_num) hlow
  have hzero := Magnitude.units_ne_zero hpos
  have hrecip := isNearest_recip s hzero
  have hsquare := isNearest_recipSquare s hzero
  have hpow : 1 / m.value ^ 2 = y ^ 2 := by rw [hy, one_div, one_div, inv_pow]
  rw [← hy] at hrecip
  rw [hpow] at hsquare
  have hnonneg : 0 ≤ y := by
    rw [hy]
    positivity
  have hhigh : y ≤ 2 ^ 24 := by
    rw [hy, div_le_iff₀ hpos]
    linarith
  have hhigh' : y ^ 2 ≤ 2 ^ 48 := sq_le_of_le hnonneg hhigh
  obtain ⟨c, hc⟩ := @Magnitude.exists_value_two_pow 48 (by decide)
  rw [← hc] at hhigh'
  have hle : y ≤ c.value := by
    rw [hc]
    linarith
  obtain ⟨r, hr, hrnearest, hrclose⟩ := hrecip.exists_close hnonneg hle
  obtain ⟨p, hp, hpnearest, hpclose⟩ := hsquare.exists_close (by positivity) hhigh'
  exact ⟨hnonneg, hhigh, r, p, hr, hp, hrnearest, hpnearest, hrclose, hpclose⟩

theorem secantRoot_lt_recip (s : Bool) (hlow : 1 / 2 ^ 24 ≤ m.value) (hhigh : m.value ≤ 1) :
    ∃ r b : Magnitude, recip (finite s m) = finite s r ∧
      secantRoot (finite s m) = finite false b ∧ b.units < r.units := by
  obtain ⟨y, hy⟩ : ∃ y, y = 1 / m.value := ⟨_, rfl⟩
  obtain ⟨-, hyhigh, r, p, hr, hp, hrnearest, hpnearest, hrclose, hpclose⟩ :=
    exists_recip_recipSquare s hlow hy
  have hylow : 1 ≤ y := by
    rw [hy, one_le_div (lt_of_lt_of_le (by norm_num) hlow)]
    exact hhigh
  have hylow' : 1 ≤ y ^ 2 := one_le_pow₀ hylow
  rw [max_eq_left hylow, abs_le] at hrclose
  rw [max_eq_left hylow', abs_le] at hpclose
  have hrone : Magnitude.one.units ≤ r.units :=
    hrnearest.le_units (by rw [Magnitude.value_one]; exact hylow)
  have hpone : Magnitude.one.units ≤ p.units :=
    hpnearest.le_units (by rw [Magnitude.value_one]; exact hylow')
  have hrone' : 1 ≤ r.value := by rwa [← Magnitude.value_one, Magnitude.value_le_value]
  have hpone' : 1 ≤ p.value := by rwa [← Magnitude.value_one, Magnitude.value_le_value]
  obtain ⟨d, hd, -, hdclose⟩ :=
    (isNearest_sub_one hpone).exists_close (c := p) (by linarith) (by linarith)
  have hdclose' : |p.value - 1 - d.value| ≤ p.value / 2 ^ 53 :=
    hdclose.trans (div_le_div_of_nonneg_right (max_le (by linarith) hpone') (by norm_num))
  rw [abs_le] at hdclose'
  -- The magnitude before the reciprocal is not below the root.
  obtain ⟨r', hlt, hr'⟩ :=
    Magnitude.exists_previous (Magnitude.units_ne_zero (one_pos.trans_le hrone'))
  rw [max_eq_left hrone'] at hr'
  obtain ⟨b, hb, hble, -⟩ := exists_sqrt d
  refine ⟨r, b, hr, ?_, ?_⟩
  · rw [secantRoot, hp, hd, hb]
  · refine (hble r' ?_).trans_lt hlt
    have hple : p.value ≤ y ^ 2 + y ^ 2 / 2 ^ 53 := by linarith
    exact sub_one_le_sq hylow hyhigh (by linarith) hr' hple (by linarith)

theorem recip_lt_cosecantRoot (s : Bool) (hlow : 1 / 2 ^ 24 ≤ m.value) :
    ∃ r b : Magnitude, recip (finite s m) = finite s r ∧
      cosecantRoot (finite s m) = finite false b ∧ r.units < b.units := by
  obtain ⟨y, hy⟩ : ∃ y, y = 1 / m.value := ⟨_, rfl⟩
  obtain ⟨hnonneg, hyhigh, r, p, hr, hp, hrnearest, hpnearest, hrclose, hpclose⟩ :=
    exists_recip_recipSquare s hlow hy
  have hyhigh' : y ^ 2 ≤ 2 ^ 48 := sq_le_of_le hnonneg hyhigh
  obtain ⟨c, hc⟩ := @Magnitude.exists_value_two_pow 48 (by decide)
  obtain ⟨c', hc'⟩ := @Magnitude.exists_value_two_pow 49 (by decide)
  have hpc : p.value ≤ c.value :=
    Magnitude.value_le_value.mpr (hpnearest.units_le (by rw [hc]; exact hyhigh'))
  have hrc : r.units ≤ c.units := hrnearest.units_le (by rw [hc]; linarith)
  have hpnonneg := p.value_nonneg
  obtain ⟨d, hd, -, hdclose⟩ :=
    (isNearest_add_one p).exists_close (c := c') (by linarith) (by rw [hc']; linarith)
  rw [max_eq_left (by linarith), abs_le] at hdclose
  rw [abs_le] at hrclose hpclose
  -- The magnitude after the reciprocal is not above the root.
  have hcc' : c.units < c'.units := by
    rw [← Magnitude.value_lt_value, hc, hc']
    norm_num
  obtain ⟨r', hlt, hr'⟩ := Magnitude.exists_next (hrc.trans_lt hcc')
  obtain ⟨b, hb, -, hleb⟩ := exists_sqrt d
  refine ⟨r, b, hr, ?_, ?_⟩
  · rw [cosecantRoot, hp, hd, hb]
  · refine hlt.trans_le (hleb r' ?_)
    have hmax : max (y ^ 2) 1 ≤ max y 1 ^ 2 := by
      refine max_le ?_ (one_le_pow₀ (le_max_right y 1))
      gcongr
      exact le_max_left y 1
    have hlep : y ^ 2 - max y 1 ^ 2 / 2 ^ 53 ≤ p.value := by linarith
    exact sq_le_add_one hnonneg (le_max_left y 1) (le_max_right y 1)
      (max_le hyhigh (by norm_num)) (by linarith) hr' r'.value_nonneg hlep (by linarith)

theorem asech_acsch_of_le (h : 1 / 2 ^ 24 ≤ m.value) :
    asech (finite true m) = nan ∧ (acsch (finite true m)).isFinite = true := by
  constructor
  · rcases le_or_gt m.value 1 with hone | hone
    · obtain ⟨r, b, hr, hb, hlt⟩ := secantRoot_lt_recip true h hone
      rw [asech_eq, hr, hb]
      exact ln_add_of_gt hlt
    · exact asech_of_one_lt true hone
  · obtain ⟨r, b, hr, hb, hlt⟩ := recip_lt_cosecantRoot true h
    rw [acsch_eq, hr, hb]
    exact ln_add_of_lt hlt

end Far

/-! ### Where the one is absorbed -/

theorem roots_eq_inf (s : Bool) (h : m.units ≠ 0) (hle : m.value ≤ 1 / 2 ^ 512) :
    secantRoot (finite s m) = inf false ∧ cosecantRoot (finite s m) = inf false := by
  rw [secantRoot, cosecantRoot, recipSquare_eq_inf s h hle]
  exact ⟨rfl, rfl⟩

theorem secantRoot_eq_cosecantRoot (s : Bool) (h : m.units ≠ 0) (hle : m.value ≤ 1 / 2 ^ 28) :
    secantRoot (finite s m) = cosecantRoot (finite s m) := by
  rcases le_or_gt m.value (1 / 2 ^ 512) with hsmall | hlarge
  · obtain ⟨hsecant, hcosecant⟩ := roots_eq_inf s h hsmall
    rw [hsecant, hcosecant]
  · obtain ⟨p, c, hp, hnearest, hpc⟩ := exists_recipSquare s hlarge
    obtain ⟨b, hb⟩ := @Magnitude.exists_value_two_pow 56 (by decide)
    have hsquare : b.value ≤ 1 / m.value ^ 2 := by
      have hpos := Magnitude.value_pos h
      have hsmall : m.value ^ 2 ≤ (1 / 2 ^ 28) ^ 2 := by gcongr
      rw [hb, le_one_div (by norm_num) (by positivity)]
      exact hsmall.trans_eq (by norm_num)
    have hbp : b.value ≤ p.value := Magnitude.value_le_value.mpr (hnearest.le_units hsquare)
    rw [hb] at hbp
    rw [secantRoot, cosecantRoot, hp, sub_one_eq_add_one (by linarith) hpc]

/-- Close to zero the two functions are the same. -/
theorem asech_eq_acsch (s : Bool) (hle : m.value ≤ 1 / 2 ^ 28) :
    asech (finite s m) = acsch (finite s m) := by
  by_cases hzero : m.units = 0
  · have hm : m = .zero := Magnitude.eq_of_units_eq (hzero.trans units_zero.symm)
    rw [hm]
    cases s <;> decide +kernel
  · rw [asech_eq, acsch_eq, secantRoot_eq_cosecantRoot s hzero hle]

theorem isFinite_acsch_of_le (h : m.units ≠ 0) (hle : m.value ≤ 1 / 2 ^ 512) :
    (acsch (finite true m)).isFinite = false := by
  rw [← Bool.not_eq_true, isFinite_acsch_iff h, (roots_eq_inf true h hle).2]
  rintro ⟨-, hfinite, -⟩
  cases hfinite

theorem asech_of_recip_inf (h : m.units ≠ 0) (hle : m.value ≤ 1 / 2 ^ 1024) :
    asech (finite true m) = nan := by
  rw [asech_eq_nan_iff h, recip_eq_inf true h hle]
  rintro ⟨hfinite, -⟩
  cases hfinite

theorem asech_of_recip_finite (hlt : 1 / 2 ^ 1024 < m.value) (hle : m.value ≤ 1 / 2 ^ 512) :
    asech (finite true m) = inf false := by
  have hpos : 0 < m.value := lt_trans (by positivity) hlt
  obtain ⟨a, ha⟩ := exists_recip true hlt
  rw [asech_eq, ha, (roots_eq_inf true (Magnitude.units_ne_zero hpos) hle).1]
  rfl

/-! ### Positive numbers -/

theorem exists_cosecantRoot (s : Bool) (hlt : 1 / 2 ^ 512 < m.value) :
    ∃ b c : Magnitude, cosecantRoot (finite s m) = finite false b ∧ c.value = 2 ^ 512 ∧
      b.units ≤ c.units ∧ 1 ≤ b.value := by
  obtain ⟨p, c, hp, -, hpc⟩ := exists_recipSquare s hlt
  obtain ⟨d, hd, hnearest, -⟩ := (isNearest_add_one p).exists_finite hpc
  have hone : Magnitude.one.units ≤ d.units := by
    apply hnearest.le_units
    rw [Magnitude.value_one]
    linarith [p.value_nonneg]
  rw [← Magnitude.value_le_value, Magnitude.value_one] at hone
  obtain ⟨b, c', hb, hc', hbc, hlow⟩ := exists_sqrt_le d
  exact ⟨b, c', by rw [cosecantRoot, hp, hd, hb], hc', hbc, hlow hone⟩

theorem isFinite_acsch_positive_iff (h : m.units ≠ 0) :
    (acsch (finite false m)).isFinite = true ↔ 1 / 2 ^ 512 < m.value := by
  rw [acsch_eq]
  rcases le_or_gt m.value (1 / 2 ^ 512) with hle | hlt
  · rw [(roots_eq_inf false h hle).2]
    have hrecip := isNearest_recip false h
    generalize recip (finite false m) = y at *
    refine iff_of_false ?_ hle.not_gt
    cases hrecip <;> exact Bool.noConfusion
  · obtain ⟨b, c, hb, hc, hbc, hone⟩ := exists_cosecantRoot false hlt
    have hrecip : 1 / m.value ≤ c.value := by
      rw [hc]
      exact (one_div_le (by positivity) (Magnitude.value_pos h)).mp hlt.le
    obtain ⟨a, ha, -, hac⟩ := (isNearest_recip false h).exists_finite hrecip
    obtain ⟨c', hc'⟩ := @Magnitude.exists_value_two_pow 513 (by decide)
    have hdouble : c.value + c.value ≤ c'.value := by
      rw [hc, hc', pow_succ (2 : ℚ) 512, mul_two]
    rw [← Magnitude.value_add_value_le] at hdouble
    rw [hb, ha]
    refine iff_of_true (ln_add_positive (c := c') ?_ (by omega)) hlt
    exact Magnitude.units_ne_zero (one_pos.trans_le hone)

/-! ### Domains -/

/-- The inverse hyperbolic secant of what is infinite or greater than one is NaN, and the inverse
hyperbolic cosecant of a positive number is finite unless the square of the reciprocal overflows.
For a negative number both follow the order of the two rounded terms.  From some point toward zero
this order cannot be right for both, because the two functions are the same there. -/
theorem asech_acsch_domains (x : Binary64) :
    (x.isFinite = false → asech x = nan) ∧
    (x.isFinite = true →
      (1 < x.value → asech x = nan) ∧
      (|x.value| ≤ 1 / 2 ^ 28 → asech x = acsch x) ∧
      (0 < x.value → ((acsch x).isFinite = true ↔ 1 / 2 ^ 512 < x.value)) ∧
      (x.value < 0 →
        (asech x = nan ↔
          ¬((recip x).isFinite = true ∧ AtMost (recip x).negate (secantRoot x))) ∧
        ((acsch x).isFinite = true ↔
          (recip x).isFinite = true ∧ (cosecantRoot x).isFinite = true ∧
            ¬AtMost (cosecantRoot x) (recip x).negate) ∧
        (x.value ≤ -(1 / 2 ^ 24) → asech x = nan ∧ (acsch x).isFinite = true) ∧
        (-(1 / 2 ^ 512) ≤ x.value → (acsch x).isFinite = false) ∧
        (-(1 / 2 ^ 512) ≤ x.value → x.value < -(1 / 2 ^ 1024) → asech x = inf false) ∧
        (-(1 / 2 ^ 1024) ≤ x.value → asech x = nan))) := by
  match x with
  | nan =>
    constructor
    · intro _
      rfl
    · intro hfinite
      cases hfinite
  | inf s =>
    constructor
    · intro _
      exact asech_inf s
    · intro hfinite
      cases hfinite
  | finite false m =>
    have hvalue : (finite false m).value = m.value := value_finite false m
    rw [hvalue, abs_of_nonneg m.value_nonneg]
    constructor
    · intro hfinite
      cases hfinite
    · intro _
      refine ⟨asech_of_one_lt false, asech_eq_acsch false, ?_, ?_⟩
      · intro hpos
        exact isFinite_acsch_positive_iff (Magnitude.units_ne_zero hpos)
      · intro hneg
        exact absurd hneg m.value_nonneg.not_gt
  | finite true m =>
    have hvalue : (finite true m).value = -m.value := value_finite true m
    have hnonneg := m.value_nonneg
    rw [hvalue, abs_neg, abs_of_nonneg hnonneg]
    constructor
    · intro hfinite
      cases hfinite
    · intro _
      refine ⟨?_, asech_eq_acsch true, ?_, ?_⟩
      · intro hone
        linarith
      · intro hpos
        linarith
      · intro hneg
        have hzero := Magnitude.units_ne_zero (neg_neg_iff_pos.mp hneg)
        refine ⟨asech_eq_nan_iff hzero, isFinite_acsch_iff hzero, ?_, ?_, ?_, ?_⟩
        · intro hle
          exact asech_acsch_of_le (neg_le_neg_iff.mp hle)
        · intro hle
          exact isFinite_acsch_of_le hzero (neg_le_neg_iff.mp hle)
        · intro hle hlt
          exact asech_of_recip_finite (neg_lt_neg_iff.mp hlt) (neg_le_neg_iff.mp hle)
        · intro hle
          exact asech_of_recip_inf hzero (neg_le_neg_iff.mp hle)

/-- Two, a negative half, and plus and minus `2 ^ -600`. -/
theorem asech_acsch_powers :
    1 < (finite false ⟨2 ^ 52, 1023, by decide⟩).value ∧
      asech (finite false ⟨2 ^ 52, 1023, by decide⟩) = nan ∧
    (finite true ⟨2 ^ 52, 1021, by decide⟩).value = -(1 / 2 ^ 1) ∧
      asech (finite true ⟨2 ^ 52, 1021, by decide⟩) = nan ∧
      (acsch (finite true ⟨2 ^ 52, 1021, by decide⟩)).isFinite = true ∧
    (finite true ⟨2 ^ 52, 422, by decide⟩).value = -(1 / 2 ^ 600) ∧
      asech (finite true ⟨2 ^ 52, 422, by decide⟩) = inf false ∧
    (finite false ⟨2 ^ 52, 422, by decide⟩).value = 1 / 2 ^ 600 ∧
      (acsch (finite false ⟨2 ^ 52, 422, by decide⟩)).isFinite = false := by
  have htwo : 1 < (finite false ⟨2 ^ 52, 1023, by decide⟩).value := by
    have hlt : Magnitude.one.units < Magnitude.units ⟨2 ^ 52, 1023, by decide⟩ := by
      decide +kernel
    rw [← Magnitude.value_lt_value, Magnitude.value_one] at hlt
    rw [value_finite]
    exact hlt
  have hhalf : (finite true ⟨2 ^ 52, 1021, by decide⟩).value = -(1 / 2 ^ 1) := by
    rw [value_finite]
    exact congrArg Neg.neg (Magnitude.value_of_mant_eq rfl rfl)
  have hminus : (finite true ⟨2 ^ 52, 422, by decide⟩).value = -(1 / 2 ^ 600) := by
    rw [value_finite]
    exact congrArg Neg.neg (Magnitude.value_of_mant_eq rfl rfl)
  have hplus : (finite false ⟨2 ^ 52, 422, by decide⟩).value = 1 / 2 ^ 600 := by
    rw [value_finite]
    exact Magnitude.value_of_mant_eq rfl rfl
  -- Greater powers in the denominator are smaller numbers.
  have hpow : ∀ {j k : ℕ}, j < k → (1 / 2 ^ k : ℚ) < 1 / 2 ^ j := fun hlt =>
    one_div_lt_one_div_of_lt (by positivity) (pow_lt_pow_right₀ one_lt_two hlt)
  obtain ⟨hbeyond, -⟩ := (asech_acsch_domains (finite false ⟨2 ^ 52, 1023, by decide⟩)).2 rfl
  obtain ⟨-, -, -, hnegative⟩ := (asech_acsch_domains (finite true ⟨2 ^ 52, 1021, by decide⟩)).2 rfl
  obtain ⟨-, -, hfar, -⟩ := hnegative (by rw [hhalf]; norm_num)
  obtain ⟨-, -, -, hnegative⟩ := (asech_acsch_domains (finite true ⟨2 ^ 52, 422, by decide⟩)).2 rfl
  obtain ⟨-, -, -, -, hnear, -⟩ := hnegative (by rw [hminus, neg_lt_zero]; positivity)
  obtain ⟨-, -, hpositive, -⟩ := (asech_acsch_domains (finite false ⟨2 ^ 52, 422, by decide⟩)).2 rfl
  have hinside := hpositive (by rw [hplus]; positivity)
  rw [hhalf] at hfar
  rw [hminus] at hnear
  rw [hplus] at hinside
  obtain ⟨hsecant, hcosecant⟩ := hfar (by norm_num)
  refine ⟨htwo, hbeyond htwo, hhalf, hsecant, hcosecant, hminus, ?_, hplus, ?_⟩
  · exact hnear (neg_le_neg (hpow (by decide)).le) (neg_lt_neg (hpow (by decide)))
  · rw [← Bool.not_eq_true, hinside, not_lt]
    exact (hpow (by decide)).le

/-- At minus `2 ^ -40` both sums are zero: outside of the one domain there is an infinity in the
place of the NaN, and inside of the other one in the place of a number near `-28.4`. -/
theorem asech_acsch_cancelled :
    (finite true ⟨2 ^ 52, 982, by decide⟩).value = -(1 / 2 ^ 40) ∧
      asech (finite true ⟨2 ^ 52, 982, by decide⟩) = inf true ∧
      acsch (finite true ⟨2 ^ 52, 982, by decide⟩) = inf true := by
  refine ⟨?_, by decide +kernel, by decide +kernel⟩
  rw [value_finite]
  exact congrArg Neg.neg (Magnitude.value_of_mant_eq rfl rfl)

end Binary64

end Calculator
