/-
  Calculator/Proofs/Number/Accuracy.lean
  ======================================
  **How far a rounding moves a number.**  Where the magnitudes have 53 bits, a
  rational from one on is moved by at most one part in `2 ^ 53` of itself, and a
  smaller one by at most `2 ^ -53`.  The magnitudes next to a given one are at most
  twice as far away.

  A sum of numbers is one rounding of the sum of their units.  So it has the sign of
  the exact sum, it is zero only if the exact sum is, and it is finite if the exact
  sum is not above a magnitude.
-/
import Calculator.Proofs.Number.Integers

namespace Calculator

namespace Magnitude

/-! ### Error bounds -/

theorem units_ne_zero {m : Magnitude} (h : 0 < m.value) : m.units ≠ 0 := by
  intro hzero
  rw [value, hzero, Nat.cast_zero, zero_div] at h
  exact h.false

theorem value_one : one.value = 1 := by
  rw [value, units_one, div_self cast_unitsPerOne_pos.ne']

theorem value_le_value {m d : Magnitude} : m.value ≤ d.value ↔ m.units ≤ d.units := by
  rw [← not_lt, ← not_lt, value_lt_value]

theorem value_add_value_le {a b c : Magnitude} :
    a.units + b.units ≤ c.units ↔ a.value + b.value ≤ c.value := by
  rw [value, value, value, ← add_div, div_le_div_iff_of_pos_right cast_unitsPerOne_pos]
  exact_mod_cast Iff.rfl

theorem exists_value_natCast {k : Nat} (hk : k < 2 ^ 53) : ∃ d : Magnitude, d.value = k := by
  obtain ⟨n, hn, hunits⟩ := exists_unitsPerOne_eq
  obtain ⟨d, hd⟩ := @exists_units_eq_mul k n hk (by omega)
  refine ⟨d, ?_⟩
  rw [value, hd, ← hunits, Nat.cast_mul, mul_div_cancel_right₀ _ cast_unitsPerOne_pos.ne']

theorem isNearest_value (s : Bool) (m : Magnitude) :
    Binary64.IsNearest s m.value (.finite s m) := by
  have h : Binary64.IsNearest s m.value (Binary64.ofRatio s m.units 1) :=
    Binary64.isNearest_ofRatio s Nat.one_pos (by rw [value, Nat.cast_one, div_one])
  rwa [Binary64.ofRatio_units] at h

theorem isNearest_self (m : Magnitude) : m.IsNearest m.value := by
  cases m.isNearest_value false with
  | finite _ hm => exact hm

section Bound

variable {q : ℚ} {m d : Magnitude}

/-- A magnitude that bounds a rational bounds what it is rounded to. -/
theorem IsNearest.units_le (hm : m.IsNearest q) (hle : q ≤ d.value) : m.units ≤ d.units :=
  hm.monotone d.isNearest_self hle

theorem IsNearest.le_units (hm : m.IsNearest q) (hle : d.value ≤ q) : d.units ≤ m.units :=
  d.isNearest_self.monotone hm hle

end Bound

theorem exists_value_two_pow {k : Nat} (hk : k ≤ 971) : ∃ d : Magnitude, d.value = 2 ^ k := by
  obtain ⟨n, hn, hunits⟩ := exists_unitsPerOne_eq
  obtain ⟨d, hd⟩ := @exists_units_eq_mul 1 (k + n) (by decide) (by omega)
  refine ⟨d, ?_⟩
  rw [value, hd, Nat.one_mul, Nat.pow_add, ← hunits, Nat.cast_mul,
    mul_div_cancel_right₀ _ cast_unitsPerOne_pos.ne', Nat.cast_pow, Nat.cast_ofNat]

theorem value_of_units_eq {m : Magnitude} {j k : ℕ} (hunits : m.units = 2 ^ j)
    (hsum : j + k = 1074) : m.value = 1 / 2 ^ k := by
  obtain ⟨n, hn, hone⟩ := exists_unitsPerOne_eq
  have hsplit : (unitsPerOne : ℚ) = 2 ^ j * 2 ^ k := by
    rw [hone, ← pow_add, hsum, hn, Nat.cast_pow, Nat.cast_ofNat]
  rw [value, hunits, hsplit, Nat.cast_pow, Nat.cast_ofNat, div_mul_cancel_left₀ (by positivity),
    one_div]

/-- The powers of two up to one that are not subnormal. -/
theorem value_of_mant_eq {m : Magnitude} {k : ℕ} (hmant : m.mant = 2 ^ 52)
    (hexp : m.exp + k = 1022) : m.value = 1 / 2 ^ k := by
  have hunits : m.units = 2 ^ (52 + m.exp) := by rw [units, hmant, ← Nat.pow_add]
  exact value_of_units_eq hunits (by omega)

theorem value_lt_overflowThreshold (m : Magnitude) : m.value < overflowThreshold := by
  cases isNearest_value false m with
  | finite hlt _ => exact hlt

theorem exists_natCast_div {x : ℚ} (h : 0 ≤ x) : ∃ num den : ℕ, 0 < den ∧ x = num / den := by
  refine ⟨x.num.toNat, x.den, x.den_pos, ?_⟩
  have hnum : ((x.num.toNat : ℤ) : ℚ) = x.num := by
    rw [Int.toNat_of_nonneg (Rat.num_nonneg.mpr h)]
  rw [← Int.cast_natCast, hnum, Rat.num_div_den]

theorem two_pow_le_unitsPerOne : (2 ^ 52 : ℚ) ≤ unitsPerOne := by
  obtain ⟨n, hn, hunits⟩ := exists_unitsPerOne_eq
  rw [hunits]
  push_cast
  exact pow_le_pow_right₀ (by norm_num) (by omega)

/-- The step of a grid is small against what has 53 bits on it, and against one. -/
theorem step_le {x : ℚ} {e : ℕ} (h : e = 0 ∨ 2 ^ 52 * 2 ^ e ≤ x) :
    (2 ^ e : ℚ) / unitsPerOne ≤ max (x / unitsPerOne) 1 / 2 ^ 52 := by
  have hpos : (0 : ℚ) < unitsPerOne := cast_unitsPerOne_pos
  rw [le_div_iff₀ (by positivity)]
  rcases h with rfl | hcoarse
  · refine le_trans ?_ (le_max_right _ _)
    rw [pow_zero, one_div_mul_eq_div, div_le_one hpos]
    exact two_pow_le_unitsPerOne
  · refine le_trans ?_ (le_max_left _ _)
    rw [div_mul_eq_mul_div, mul_comm]
    exact div_le_div_of_nonneg_right hcoarse hpos.le

theorem exists_close {q : ℚ} (hq : 0 ≤ q) (hlt : q < overflowThreshold) :
    ∃ d : Magnitude, |q - d.value| ≤ max q 1 / 2 ^ 53 := by
  have hpos : (0 : ℚ) < unitsPerOne := cast_unitsPerOne_pos
  obtain ⟨num, den, hden, hx⟩ := exists_natCast_div (mul_nonneg hq hpos.le)
  have h := @roundsTo_divHalfEven num den _ hden rfl
  rw [← hx] at h
  have hin : ¬(2044 + 1 < (num / den).log2 - 52 ∨ (num / den).log2 - 52 = 2044 + 1 ∧
      divHalfEven num (den * 2 ^ ((num / den).log2 - 52)) = 2 ^ 53) := by
    rw [h.overflow_iff 2044, ← overflowThreshold_mul, mul_le_mul_iff_left₀ hpos]
    exact hlt.not_ge
  rcases nearest?_cases rfl rfl h with ⟨d, -, hunits, -⟩ | ⟨-, hout⟩
  · refine ⟨d, ?_⟩
    generalize (num / den).log2 - 52 = e at *
    generalize divHalfEven num (den * 2 ^ e) = k at *
    have hcast : (d.units : ℚ) = k * 2 ^ e := by
      rw [hunits]
      push_cast
      rfl
    have hhalf : |q * unitsPerOne - d.units| ≤ 2 ^ e / 2 := by
      have hlow := h.low
      have hhigh := h.high
      rw [hcast, abs_le]
      constructor <;> linarith
    have hstep := step_le h.coarse
    rw [mul_div_cancel_right₀ q hpos.ne'] at hstep
    have hscaled := div_le_div_of_nonneg_right hhalf hpos.le
    rw [← abs_sub_value, mul_div_cancel_right₀ q hpos.ne'] at hscaled
    calc |q - d.value| ≤ 2 ^ e / 2 / unitsPerOne := hscaled
      _ = 2 ^ e / unitsPerOne / 2 := by ring
      _ ≤ max q 1 / 2 ^ 52 / 2 := by linarith
      _ = max q 1 / 2 ^ 53 := by ring
  · exact absurd hout hin

/-- Rounding moves a rational by at most one part in `2 ^ 53`, of itself or of one. -/
theorem IsNearest.abs_sub_le {q : ℚ} {m c : Magnitude} (hm : m.IsNearest q) (hq : 0 ≤ q)
    (hle : q ≤ c.value) : |q - m.value| ≤ max q 1 / 2 ^ 53 := by
  obtain ⟨d, hd⟩ := exists_close hq (hle.trans_lt c.value_lt_overflowThreshold)
  exact (hm.nearest d).trans hd

theorem exp_step (m : Magnitude) : m.exp = 0 ∨ (2 ^ 52 * 2 ^ m.exp : ℚ) ≤ m.units := by
  by_cases h : m.exp = 0
  · exact Or.inl h
  · right
    exact_mod_cast le_units h

theorem units_add_step_le {m d : Magnitude} (h : m.units < d.units) :
    m.units + 2 ^ m.exp ≤ d.units := by
  obtain ⟨j, hj⟩ := exists_units_eq (exp_le_of_units_le h.le)
  rw [hj] at h ⊢
  rw [units, ← Nat.succ_mul]
  exact Nat.mul_le_mul_right (2 ^ m.exp) (Nat.lt_of_mul_lt_mul_right h)

theorem value_add_step_le {m d : Magnitude} (h : m.units < d.units) :
    m.value + 2 ^ m.exp / unitsPerOne ≤ d.value := by
  have hcast : (m.units + 2 ^ m.exp : ℚ) ≤ d.units := by exact_mod_cast units_add_step_le h
  rw [value, value, ← add_div]
  exact div_le_div_of_nonneg_right hcast cast_unitsPerOne_pos.le

/-- What is greater than a power of two is greater by at least a step. -/
theorem mul_le_value {m d : Magnitude} (hmant : m.mant = 2 ^ 52) (h : m.units < d.units) :
    m.value * (1 + 1 / 2 ^ 52) ≤ d.value := by
  have hstep := value_add_step_le h
  have hvalue : m.value = 2 ^ 52 * (2 ^ m.exp / unitsPerOne) := by
    rw [value, units, hmant, Nat.cast_mul, Nat.cast_pow, Nat.cast_pow, Nat.cast_ofNat,
      mul_div_assoc]
  linarith

theorem exists_previous {m : Magnitude} (h : m.units ≠ 0) :
    ∃ d : Magnitude, d.units < m.units ∧ m.value - max m.value 1 / 2 ^ 52 ≤ d.value := by
  have hpos : 0 < m.mant := by
    apply Nat.pos_of_ne_zero
    intro hzero
    rw [units, hzero, Nat.zero_mul] at h
    exact h rfl
  obtain ⟨d, hd⟩ := @exists_units_eq_mul (m.mant - 1) m.exp
    ((Nat.sub_le _ _).trans_lt m.canonical.1) m.canonical.2.1
  have hunits : d.units + 2 ^ m.exp = m.units := by
    rw [hd, ← Nat.succ_mul, Nat.succ_eq_add_one, Nat.sub_add_cancel hpos]
    rfl
  have hstep : (2 ^ m.exp : ℚ) / unitsPerOne ≤ max m.value 1 / 2 ^ 52 := step_le m.exp_step
  have hcast : (d.units + 2 ^ m.exp : ℚ) = m.units := by exact_mod_cast hunits
  refine ⟨d, ?_, ?_⟩
  · have htwo := Nat.two_pow_pos m.exp
    omega
  · have hvalue : m.value = d.value + 2 ^ m.exp / unitsPerOne := by
      rw [value, value, ← hcast, add_div]
    linarith

theorem exists_next {m c : Magnitude} (h : m.units < c.units) :
    ∃ d : Magnitude, m.units < d.units ∧ d.value ≤ m.value + max m.value 1 / 2 ^ 52 := by
  have hexists : ∃ d : Magnitude, d.units = m.units + 2 ^ m.exp := by
    rw [units, ← Nat.succ_mul]
    by_cases hfull : m.mant + 1 = 2 ^ 53
    · have hexp : m.exp + 1 ≤ c.exp := by
        have hle := (units_add_step_le h).trans_lt c.units_lt
        rw [units, ← Nat.succ_mul, Nat.succ_eq_add_one, hfull, ← Nat.pow_add, ← Nat.pow_add] at hle
        have hlt := (Nat.pow_lt_pow_iff_right (by decide)).mp hle
        omega
      obtain ⟨d, hd⟩ := @exists_units_eq_mul (2 ^ 52) (m.exp + 1) (by decide)
        (hexp.trans c.canonical.2.1)
      refine ⟨d, ?_⟩
      rw [hd, Nat.succ_eq_add_one, hfull, Nat.pow_succ 2 m.exp]
      omega
    · have hmant := m.canonical.1
      exact exists_units_eq_mul (by omega) m.canonical.2.1
  obtain ⟨d, hd⟩ := hexists
  have hstep : (2 ^ m.exp : ℚ) / unitsPerOne ≤ max m.value 1 / 2 ^ 52 := step_le m.exp_step
  have hcast : (d.units : ℚ) = m.units + 2 ^ m.exp := by exact_mod_cast hd
  refine ⟨d, ?_, ?_⟩
  · have htwo := Nat.two_pow_pos m.exp
    omega
  · rw [value, hcast, add_div]
    exact add_le_add_right hstep _

/-! ### Absorption -/

theorem two_lt_sub {a b : Magnitude} (h : a.units < b.units) (hb : 2 ^ 55 ≤ b.value) :
    2 < b.value - a.value := by
  rcases lt_or_ge a.value (2 ^ 54) with hlt | hge
  · linarith
  · have hstep := value_add_step_le h
    have hunits : (a.units : ℚ) < 2 ^ 53 * 2 ^ a.exp := by
      exact_mod_cast a.units_lt
    have hvalue : a.value < 2 ^ 53 * (2 ^ a.exp / unitsPerOne) := by
      rw [value, mul_div_assoc', div_lt_div_iff_of_pos_right cast_unitsPerOne_pos]
      exact hunits
    linarith

/-- Large magnitudes absorb what is not greater than one. -/
theorem isNearest_of_abs_sub_le {p : Magnitude} (hp : 2 ^ 55 ≤ p.value) {q : ℚ}
    (hq : |q - p.value| ≤ 1) : p.IsNearest q := by
  rw [abs_le] at hq
  have hfar : ∀ d : Magnitude, d ≠ p → |q - p.value| < |q - d.value| := by
    intro d hne
    have hunits : d.units ≠ p.units := fun heq => hne (eq_of_units_eq heq)
    refine lt_of_le_of_lt (abs_le.mpr hq) (lt_abs.mpr ?_)
    rcases Nat.lt_or_gt_of_ne hunits with hlt | hgt
    · have hgap := two_lt_sub hlt hp
      left
      linarith
    · have hgap := two_lt_sub hgt (hp.trans (value_lt_value.mpr hgt).le)
      right
      linarith
  constructor
  · intro d
    rcases eq_or_ne d p with rfl | hne
    · exact le_rfl
    · exact (hfar d hne).le
  · intro d hne htie
    exact absurd htie (hfar d hne).ne'

end Magnitude

/-! ### Overflow -/

theorem overflowThreshold_eq : overflowThreshold = unitsPerOne * ((2 ^ 54 - 1) / 2 ^ 104) := by
  have hpos : (0 : ℚ) < unitsPerOne := cast_unitsPerOne_pos
  obtain ⟨n, hn, hunits⟩ := Magnitude.exists_unitsPerOne_eq
  have hsquare : (unitsPerOne * unitsPerOne : ℚ) = 2 ^ 104 * 2 ^ 2044 := by
    rw [hunits, Nat.cast_pow, Nat.cast_ofNat, ← pow_add, ← pow_add, hn]
  rw [← mul_left_inj' hpos.ne', Magnitude.overflowThreshold_mul, mul_right_comm, hsquare,
    mul_comm _ ((2 ^ 54 - 1) / 2 ^ 104 : ℚ), ← mul_assoc, div_mul_cancel₀ _ (by norm_num)]

theorem overflowThreshold_le_sq : overflowThreshold ≤ (2 ^ 512) ^ 2 := by
  rw [overflowThreshold, ← pow_mul]
  exact sub_le_self _ (by positivity)

/-! ### Sums -/

namespace Binary64

variable {q : ℚ} {x : Binary64} {s : Bool}

theorem IsNearest.exists_finite (h : IsNearest s q x) {m : Magnitude} (hle : q ≤ m.value) :
    ∃ d : Magnitude, x = .finite s d ∧ d.IsNearest q ∧ d.units ≤ m.units := by
  cases h with
  | inf hlarge => exact absurd (hlarge.trans hle) m.value_lt_overflowThreshold.not_ge
  | @finite d _ hd => exact ⟨d, rfl, hd, hd.units_le hle⟩

theorem IsNearest.exists_close (h : IsNearest s q x) (hq : 0 ≤ q) {c : Magnitude}
    (hle : q ≤ c.value) : ∃ d : Magnitude, x = .finite s d ∧ d.IsNearest q ∧
      |q - d.value| ≤ max q 1 / 2 ^ 53 := by
  obtain ⟨d, hd, hnearest, -⟩ := h.exists_finite hle
  exact ⟨d, hd, hnearest, hnearest.abs_sub_le hq hle⟩

/-- A sum of units is rounded with its sign; the sign of a sum of zero is given. -/
theorem isNearest_ofUnits {n : ℤ} (hn : n ≠ 0) :
    IsNearest (decide (n < 0)) (n.natAbs / unitsPerOne) (ofUnits s n) := by
  rw [ofUnits, if_neg hn]
  exact isNearest_ofRatio _ Nat.one_pos (by rw [Nat.cast_one, div_one])

theorem ofUnits_zero : ofUnits s 0 = zero s := by
  have hunits : Magnitude.zero.units = 0 := by decide
  rw [ofUnits, if_pos rfl, Int.natAbs_zero, ← hunits, ofRatio_units]
  rfl

/-- A sum that is not zero and not above a magnitude is finite, has the sign of the exact sum, and
is not zero. -/
theorem exists_ofUnits {n : ℤ} (hn : n ≠ 0) {m : Magnitude} (hle : n.natAbs ≤ m.units) :
    ∃ d : Magnitude, ofUnits s n = finite (decide (n < 0)) d ∧ d.units ≠ 0 ∧
      d.IsNearest (n.natAbs / unitsPerOne) := by
  have hpos : (0 : ℚ) < unitsPerOne := cast_unitsPerOne_pos
  have hbound : (n.natAbs : ℚ) / unitsPerOne ≤ m.value :=
    div_le_div_of_nonneg_right (by exact_mod_cast hle) hpos.le
  obtain ⟨d, hd, hnearest, -⟩ := (isNearest_ofUnits hn).exists_finite hbound
  refine ⟨d, hd, ?_, hnearest⟩
  -- One unit is a magnitude.
  obtain ⟨unit, hunit⟩ := @Magnitude.exists_units_eq_mul 1 0 (by decide) (by decide)
  have hone : unit.value ≤ n.natAbs / unitsPerOne := by
    rw [Magnitude.value, hunit]
    exact div_le_div_of_nonneg_right (by exact_mod_cast Int.natAbs_pos.mpr hn) hpos.le
  have hle := hnearest.le_units hone
  rw [hunit] at hle
  exact Nat.ne_of_gt hle

theorem isNearest_ofUnits_natCast (n : ℕ) :
    IsNearest false (n / unitsPerOne) (ofUnits false n) := by
  rw [ofUnits_natCast]
  exact isNearest_ofRatio _ Nat.one_pos (by rw [Nat.cast_one, div_one])

section Difference

variable {a b : Magnitude}

/-- A difference has the sign of the greater magnitude. -/
theorem exists_sub_of_lt (h : a.units < b.units) :
    ∃ d : Magnitude, ofUnits s (a.units - b.units) = finite true d ∧ d.units ≠ 0 := by
  obtain ⟨d, hd, hne, -⟩ := @exists_ofUnits s (a.units - b.units) (by omega) b (by omega)
  rw [decide_eq_true (by omega)] at hd
  exact ⟨d, hd, hne⟩

theorem exists_sub_of_gt (h : b.units < a.units) :
    ∃ d : Magnitude, ofUnits s (a.units - b.units) = finite false d ∧ d.units ≠ 0 := by
  obtain ⟨d, hd, hne, -⟩ := @exists_ofUnits s (a.units - b.units) (by omega) a (by omega)
  rw [decide_eq_false (by omega)] at hd
  exact ⟨d, hd, hne⟩

theorem sub_of_eq (h : a.units = b.units) : ofUnits s (a.units - b.units) = zero s := by
  rw [h, Int.sub_self, ofUnits_zero]

end Difference

end Binary64

end Calculator
