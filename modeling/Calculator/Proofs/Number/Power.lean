/-
  Calculator/Proofs/Number/Power.lean
  ===================================
  **The sign of a power.**  The standard's power of two numbers has the sign of the
  base if the exponent is an odd integer and no sign otherwise, in each of its cases:
  the exceptional ones, the finite ones, and those that underflow or overflow.  It is
  a NaN for a NaN operand, unless the other operand alone decides the power, and for
  a negative base with an exponent between two integers.

  The checked power gives the standard's power or refuses.  It refuses finite
  operands only: those with a NaN or at the pole of zero as outside its domain, and
  the others with an infinity as an overflow.  Zero has a NaN for no finite exponent,
  and a pole for the negative ones only, so the operands of a refusal determine what
  the standard has in its place, and the power that never fails is the standard's.

  An odd integer is less than `2 ^ 53`, because the magnitudes from there on are
  counted in twos.
-/
import Calculator.Proofs.Number.Integers

namespace Calculator

namespace Magnitude

theorem isWhole_of_units_eq_zero {m : Magnitude} (h : m.units = 0) : m.isWhole = true := by
  rw [isWhole, h, Nat.zero_mod]
  rfl

theorem whole_of_units_eq_zero {m : Magnitude} (h : m.units = 0) : m.whole = 0 := by
  rw [whole, h, Nat.zero_div]

theorem value_pos {m : Magnitude} (h : m.units ≠ 0) : 0 < m.value := by
  exact div_pos (Nat.cast_pos.mpr (Nat.pos_of_ne_zero h)) cast_unitsPerOne_pos

/-- From `2 ^ 53` on the magnitudes are even integers. -/
theorem whole_even_of_le {m : Magnitude} (h : 2 ^ 53 * unitsPerOne ≤ m.units) :
    m.whole % 2 = 0 := by
  obtain ⟨n, -, hn⟩ := exists_unitsPerOne_eq
  rw [hn] at h
  -- A significand of 53 bits leaves no smaller exponent.
  have hexp : n + 1 ≤ m.exp := by
    apply Nat.lt_of_not_le
    intro hle
    have hpow : 2 ^ m.exp ≤ 2 ^ n := Nat.pow_le_pow_right (by decide) hle
    have hlt := m.units_lt
    omega
  obtain ⟨j, hj⟩ := exists_units_eq hexp
  have hwhole : m.whole = j * 2 := by
    rw [whole, hj, hn, Nat.pow_succ', ← Nat.mul_assoc]
    exact Nat.mul_div_cancel _ (Nat.two_pow_pos n)
  omega

end Magnitude

namespace Binary64

/-! ### Odd integers -/

/-- A finite number that is an odd integer. -/
def IsOddInteger (x : Binary64) : Prop := x.isFinite = true ∧ ∃ k : ℤ, x.value = 2 * k + 1

theorem value_of_isWhole {s : Bool} {m : Magnitude} (h : m.isWhole = true) :
    (finite s m).value = (if s then -(m.whole : ℤ) else m.whole : ℤ) := by
  rw [value_finite, Magnitude.value_of_isWhole h]
  cases s with
  | false => exact (Int.cast_natCast m.whole).symm
  | true => simp [withSign]

theorem isOdd_iff (x : Binary64) : x.isOdd = true ↔ x.IsOddInteger := by
  cases x with
  | nan => simp [isOdd, IsOddInteger, isFinite]
  | inf s => simp [isOdd, IsOddInteger, isFinite]
  | finite s m =>
    rw [isOdd, Bool.and_eq_true, decide_eq_true_eq]
    constructor
    · rintro ⟨hwhole, hodd⟩
      refine ⟨rfl, ?_⟩
      rw [value_of_isWhole hwhole]
      cases s with
      | false =>
        refine ⟨m.whole / 2, ?_⟩
        have hk : (m.whole : ℤ) = 2 * (m.whole / 2 : ℤ) + 1 := by omega
        rw [if_neg Bool.false_ne_true]
        exact_mod_cast hk
      | true =>
        refine ⟨-(m.whole / 2 : ℤ) - 1, ?_⟩
        have hk : -(m.whole : ℤ) = 2 * (-(m.whole / 2 : ℤ) - 1) + 1 := by omega
        rw [if_pos rfl]
        exact_mod_cast hk
    · rintro ⟨-, k, hk⟩
      have hwhole : m.isWhole = true := by
        apply isIntegral_finite_iff.mp
        exact ⟨2 * k + 1, by rw [hk]; push_cast; rfl⟩
      refine ⟨hwhole, ?_⟩
      rw [value_of_isWhole hwhole] at hk
      have hodd : (if s then -(m.whole : ℤ) else m.whole : ℤ) = 2 * k + 1 := by exact_mod_cast hk
      cases s with
      | false =>
        rw [if_neg Bool.false_ne_true] at hodd
        omega
      | true =>
        rw [if_pos rfl] at hodd
        omega

theorem not_isOddInteger_of_le {x : Binary64} (h : 2 ^ 53 ≤ |x.value|) : ¬x.IsOddInteger := by
  rw [← isOdd_iff]
  cases x with
  | nan => simp [isOdd]
  | inf s => simp [isOdd]
  | finite s m =>
    rw [abs_value_finite] at h
    have hunits : 2 ^ 53 * unitsPerOne ≤ m.units :=
      Magnitude.natCast_le_value.mp (by exact_mod_cast h)
    have heven := Magnitude.whole_even_of_le hunits
    rw [isOdd, heven]
    simp

theorem isOdd_of_units_eq_zero {t : Bool} {n : Magnitude} (h : n.units = 0) :
    (finite t n).isOdd = false := by
  rw [isOdd, Magnitude.whole_of_units_eq_zero h, Nat.zero_mod]
  exact Bool.and_false _

theorem units_zero : Magnitude.zero.units = 0 := by decide

theorem eq_zero_iff {s t : Bool} {m : Magnitude} : finite s m = zero t ↔ s = t ∧ m.units = 0 := by
  constructor
  · intro h
    rw [zero] at h
    injection h with hs hm
    exact ⟨hs, by rw [hm, units_zero]⟩
  · rintro ⟨rfl, h⟩
    rw [zero, Magnitude.eq_of_units_eq (h.trans units_zero.symm)]

theorem value_neg_iff {s : Bool} {m : Magnitude} :
    (finite s m).value < 0 ↔ s = true ∧ m.units ≠ 0 := by
  rw [value_finite]
  by_cases hm : m.units = 0
  · have hvalue : m.value = 0 := by rw [Magnitude.value, hm, Nat.cast_zero, zero_div]
    rw [hvalue]
    cases s <;> simp [hm, withSign]
  · have hpos := Magnitude.value_pos hm
    cases s with
    | false => simp [withSign, hpos.le]
    | true => simp [withSign, hpos, hm]

theorem neg_ofMagnitude? (s : Bool) (m : Option Magnitude) : (ofMagnitude? s m).neg = s := by
  cases m <;> rfl

theorem ofMagnitude?_ne_nan (s : Bool) (m : Option Magnitude) : ofMagnitude? s m ≠ nan := by
  cases m <;> exact Binary64.noConfusion

/-! ### Standard powers -/

/-- A base and an exponent that have a NaN for their power. -/
def IsUndefinedPower (base exponent : Binary64) : Prop :=
  (base = nan ∧ ∀ t, exponent ≠ zero t) ∨
  (exponent = nan ∧ base ≠ one false) ∨
  ((base.isFinite = true ∧ base.value < 0) ∧ exponent.isFinite = true ∧ ¬exponent.IsIntegral)

/-- What the operands tell of their power: a NaN, or a number with a sign. -/
inductive PowerSign (base exponent : Binary64) : Binary64 → Prop
  | undefined (h : IsUndefinedPower base exponent) : PowerSign base exponent nan
  | signed {x : Binary64} (h : ¬IsUndefinedPower base exponent) (hx : x ≠ nan)
      (hsign : x.neg = (base.neg && exponent.isOdd)) : PowerSign base exponent x

theorem powerSign_zero (base : Binary64) {t : Bool} {n : Magnitude} (h : n.units = 0) :
    PowerSign base (finite t n) (one false) := by
  refine .signed ?_ Binary64.noConfusion ?_
  · rintro (⟨-, hzero⟩ | ⟨hnan, -⟩ | ⟨-, -, hfraction⟩)
    · exact hzero t (eq_zero_iff.mpr ⟨rfl, h⟩)
    · cases hnan
    · exact hfraction (isIntegral_finite_iff.mpr (Magnitude.isWhole_of_units_eq_zero h))
  · rw [isOdd_of_units_eq_zero h, Bool.and_false]
    rfl

theorem powerSign_one (exponent : Binary64) : PowerSign (one false) exponent (one false) := by
  refine .signed ?_ Binary64.noConfusion rfl
  rintro (⟨hnan, -⟩ | ⟨-, hone⟩ | ⟨⟨-, hneg⟩, -⟩)
  · cases hnan
  · exact hone rfl
  · exact Bool.false_ne_true (value_neg_iff.mp hneg).1

theorem powerSign_nan (base : Binary64) : PowerSign base nan (standardPow base nan) := by
  have hpow : standardPow base nan = if base = one false then one false else nan := rfl
  rw [hpow]
  split
  · next hone =>
    rw [hone]
    exact powerSign_one nan
  · next hone => exact .undefined (.inr (.inl ⟨rfl, hone⟩))

theorem powerSign_inf (base : Binary64) (t : Bool) :
    PowerSign base (inf t) (standardPow base (inf t)) := by
  have hdefined (h : base ≠ nan) : ¬IsUndefinedPower base (inf t) := by
    rintro (⟨hnan, -⟩ | ⟨hnan, -⟩ | ⟨-, hfinite, -⟩)
    · exact h hnan
    · cases hnan
    · cases hfinite
  have hsign : (base.neg && (inf t).isOdd) = false := Bool.and_false _
  cases base with
  | nan => exact .undefined (.inl ⟨rfl, fun s => Binary64.noConfusion⟩)
  | inf r =>
    refine .signed (hdefined Binary64.noConfusion) ?_ ?_
    · cases t <;> exact Binary64.noConfusion
    · rw [hsign]
      cases t <;> rfl
  | finite r m =>
    have hpow : standardPow (finite r m) (inf t) =
      if m = .one then one false
      else if decide (unitsPerOne < m.units) != t then inf false
      else zero false := rfl
    refine .signed (hdefined Binary64.noConfusion) ?_ ?_
    · rw [hpow]
      split_ifs <;> exact Binary64.noConfusion
    · rw [hpow, hsign]
      split_ifs <;> rfl

section Finite

variable {t : Bool} {n : Magnitude}

theorem not_isUndefinedPower {base : Binary64} (hnan : base ≠ nan)
    (hreal : base.isFinite = true → base.value < 0 → (finite t n).IsIntegral) :
    ¬IsUndefinedPower base (finite t n) := by
  rintro (⟨h, -⟩ | ⟨h, -⟩ | ⟨⟨hfinite, hneg⟩, -, hfraction⟩)
  · exact hnan h
  · cases h
  · exact hfraction (hreal hfinite hneg)

theorem standardPow_finite {r : Bool} {m : Magnitude} (hzero : n.units ≠ 0)
    (hone : finite r m ≠ one false) : standardPow (finite r m) (finite t n) =
      if m.units = 0 then
        if t then inf (r && (finite t n).isOdd) else zero (r && (finite t n).isOdd)
      else if r && !n.isWhole then nan
      else ofMagnitude? (r && (finite t n).isOdd) (m.pow? t n) :=
  (if_neg hzero).trans (if_neg hone)

theorem powerSign_infinite (r : Bool) (hzero : n.units ≠ 0) :
    PowerSign (inf r) (finite t n) (standardPow (inf r) (finite t n)) := by
  have hpow : standardPow (inf r) (finite t n) =
      if t then zero (r && (finite t n).isOdd) else inf (r && (finite t n).isOdd) :=
    (if_neg hzero).trans (if_neg Binary64.noConfusion)
  rw [hpow]
  refine .signed (not_isUndefinedPower Binary64.noConfusion ?_) ?_ ?_
  · intro hfinite
    cases hfinite
  · cases t <;> exact Binary64.noConfusion
  · cases t <;> rfl

theorem powerSign_real {r : Bool} {m : Magnitude} (hzero : n.units ≠ 0)
    (hone : finite r m ≠ one false) :
    PowerSign (finite r m) (finite t n) (standardPow (finite r m) (finite t n)) := by
  rw [standardPow_finite hzero hone]
  by_cases hbase : m.units = 0
  · rw [if_pos hbase]
    refine .signed (not_isUndefinedPower Binary64.noConfusion ?_) ?_ ?_
    · intro _ hneg
      exact absurd hbase (value_neg_iff.mp hneg).2
    · cases t <;> exact Binary64.noConfusion
    · cases t <;> rfl
  · rw [if_neg hbase]
    by_cases hroot : (r && !n.isWhole) = true
    · rw [if_pos hroot]
      rw [Bool.and_eq_true, Bool.not_eq_true'] at hroot
      refine .undefined (.inr (.inr ⟨⟨rfl, value_neg_iff.mpr ⟨hroot.1, hbase⟩⟩, rfl, ?_⟩))
      rw [isIntegral_finite_iff, hroot.2]
      exact Bool.false_ne_true
    · rw [if_neg hroot]
      refine .signed (not_isUndefinedPower Binary64.noConfusion ?_) (ofMagnitude?_ne_nan _ _)
        (neg_ofMagnitude? _ _)
      intro _ hneg
      rw [(value_neg_iff.mp hneg).1, Bool.true_and, Bool.not_eq_true', Bool.not_eq_false] at hroot
      exact isIntegral_finite_iff.mpr hroot

theorem powerSign_finite (base : Binary64) :
    PowerSign base (finite t n) (standardPow base (finite t n)) := by
  by_cases hzero : n.units = 0
  · have hpow : standardPow base (finite t n) = one false := if_pos hzero
    rw [hpow]
    exact powerSign_zero base hzero
  · by_cases hone : base = one false
    · have hpow : standardPow base (finite t n) = one false := (if_neg hzero).trans (if_pos hone)
      rw [hpow, hone]
      exact powerSign_one (finite t n)
    · cases base with
      | nan =>
        have hpow : standardPow nan (finite t n) = nan := (if_neg hzero).trans (if_neg hone)
        rw [hpow]
        exact .undefined (.inl ⟨rfl, fun s h => hzero (eq_zero_iff.mp h).2⟩)
      | inf r => exact powerSign_infinite r hzero
      | finite r m => exact powerSign_real hzero hone

end Finite

/-- The standard's power is undefined or has the sign of the base for an odd exponent. -/
theorem powerSign_standardPow (base exponent : Binary64) :
    PowerSign base exponent (standardPow base exponent) := by
  cases exponent with
  | nan => exact powerSign_nan base
  | inf t => exact powerSign_inf base t
  | finite t n => exact powerSign_finite base

theorem standardPow_eq_nan_iff (base exponent : Binary64) :
    standardPow base exponent = nan ↔ IsUndefinedPower base exponent := by
  have hsign := powerSign_standardPow base exponent
  generalize standardPow base exponent = x at hsign
  cases hsign with
  | undefined h => exact iff_of_true rfl h
  | signed h hx => exact iff_of_false hx h

theorem neg_standardPow {base exponent : Binary64} (h : standardPow base exponent ≠ nan) :
    (standardPow base exponent).neg = (base.neg && exponent.isOdd) := by
  have hsign := powerSign_standardPow base exponent
  generalize standardPow base exponent = x at h hsign
  cases hsign with
  | undefined => exact absurd rfl h
  | signed _ _ hneg => exact hneg

/-- Zero has a pole for a negative exponent. -/
theorem standardPow_zero (s t : Bool) {n : Magnitude} (h : n.units ≠ 0) :
    standardPow (zero s) (finite t n) =
      if t then inf (s && (finite t n).isOdd) else zero (s && (finite t n).isOdd) := by
  have hone : finite s .zero ≠ one false := by cases s <;> decide
  rw [zero, standardPow_finite h hone, if_pos units_zero]

/-! ### Refused powers -/

section Refusal

variable {base exponent : Binary64}

theorem eq_zero_of_isZero (h : base.isZero = true) : base = zero base.neg := by
  cases base with
  | nan => cases h
  | inf s => cases h
  | finite s m => exact eq_zero_iff.mpr ⟨rfl, of_decide_eq_true h⟩

theorem isNegative_of_not_isZero (h : base.isZero = false) : base.isNegative = base.neg := by
  cases base with
  | nan => rfl
  | inf s => rfl
  | finite s m =>
    rw [isNegative, bne_iff_ne.mpr (of_decide_eq_false h), Bool.and_true]
    rfl

/-- Zero has an infinity for no exponent but a negative one. -/
theorem isNegative_of_standardPow_eq_inf {u : Bool} (hbase : base.isZero = true)
    (hexponent : exponent.isFinite = true) (h : standardPow base exponent = inf u) :
    exponent.isNegative = true := by
  cases exponent with
  | nan => cases hexponent
  | inf t => cases hexponent
  | finite t n =>
    by_cases hzero : n.units = 0
    · have hpow : standardPow base (finite t n) = one false := if_pos hzero
      rw [hpow] at h
      cases h
    · rw [eq_zero_of_isZero hbase, standardPow_zero _ t hzero] at h
      cases t with
      | false => cases h
      | true =>
        rw [isNegative, Bool.true_and, bne_iff_ne]
        exact hzero

/-- Zero has a NaN for no finite exponent. -/
theorem not_isZero_of_isUndefinedPower (hbase : base.isFinite = true)
    (hexponent : exponent.isFinite = true) (h : IsUndefinedPower base exponent) :
    base.isZero = false := by
  rcases h with ⟨rfl, -⟩ | ⟨rfl, -⟩ | ⟨⟨-, hneg⟩, -⟩
  · cases hbase
  · cases hexponent
  · cases base with
    | nan => cases hbase
    | inf s => cases hbase
    | finite s m => exact decide_eq_false (value_neg_iff.mp hneg).2

/-- What a refusal says of the operands and the standard's power. -/
theorem standardPow_of_error {refusal : Refusal} (h : checkedPow base exponent = .error refusal) :
    base.isFinite = true ∧ exponent.isFinite = true ∧
      (standardPow base exponent = nan ∧ refusal = .domain ∨
        ∃ u, standardPow base exponent = inf u ∧
          refusal = if base.isZero then .domain else .overflow) := by
  rw [checkedPow] at h
  split at h
  · cases h
  · next u hpow =>
    split at h
    · next hfinite =>
      obtain ⟨hbase, hexponent⟩ := Bool.and_eq_true_iff.mp hfinite
      injection h with h
      exact ⟨hbase, hexponent, .inr ⟨u, hpow, h.symm⟩⟩
    · cases h
  · next hpow =>
    split at h
    · next hfinite =>
      obtain ⟨hbase, hexponent⟩ := Bool.and_eq_true_iff.mp hfinite
      injection h with h
      exact ⟨hbase, hexponent, .inl ⟨hpow, h.symm⟩⟩
    · cases h

theorem standardPow_of_ok {x : Binary64} (h : checkedPow base exponent = .ok x) :
    standardPow base exponent = x := by
  rw [checkedPow] at h
  split at h
  · next hpow =>
    injection h with h
    rw [hpow, h]
  · next hpow =>
    split at h
    · cases h
    · injection h with h
      rw [hpow, h]
  · next hpow =>
    split at h
    · cases h
    · injection h with h
      rw [hpow, h]

theorem neg_of_standardPow_eq_inf {u : Bool} (h : standardPow base exponent = inf u) :
    u = (base.neg && exponent.isOdd) := by
  have hnan : standardPow base exponent ≠ nan := by
    rw [h]
    exact Binary64.noConfusion
  rw [← neg_standardPow hnan, h, neg]

theorem standardPow_of_overflow (h : checkedPow base exponent = .error .overflow) :
    standardPow base exponent = inf (base.isNegative && exponent.isOdd) := by
  obtain ⟨-, -, ⟨-, hdomain⟩ | ⟨u, hpow, hrefusal⟩⟩ := standardPow_of_error h
  · cases hdomain
  · have hzero : base.isZero = false := by
      by_contra hzero
      rw [Bool.not_eq_false] at hzero
      rw [hzero, if_pos rfl] at hrefusal
      cases hrefusal
    rw [hpow, neg_of_standardPow_eq_inf hpow, isNegative_of_not_isZero hzero]

theorem standardPow_of_domain (h : checkedPow base exponent = .error .domain) :
    standardPow base exponent =
      if base.isZero && exponent.isNegative then inf (exponent.isOdd && base.neg) else nan := by
  obtain ⟨hbase, hexponent, ⟨hpow, -⟩ | ⟨u, hpow, hrefusal⟩⟩ := standardPow_of_error h
  · -- The handler finds no pole, because the base is not zero.
    have hundefined := (standardPow_eq_nan_iff base exponent).mp hpow
    rw [hpow, not_isZero_of_isUndefinedPower hbase hexponent hundefined, Bool.false_and,
      if_neg Bool.false_ne_true]
  · have hzero : base.isZero = true := by
      by_contra hzero
      rw [if_neg hzero] at hrefusal
      cases hrefusal
    rw [hpow, neg_of_standardPow_eq_inf hpow, hzero,
      isNegative_of_standardPow_eq_inf hzero hexponent hpow, Bool.and_self, if_pos rfl,
      Bool.and_comm]

end Refusal

/-- The operands of a refusal decide the standard's power. -/
theorem pow_eq_standardPow (base exponent : Binary64) :
    pow base exponent = standardPow base exponent := by
  rw [pow]
  split
  · next h => exact (standardPow_of_ok h).symm
  · next h => exact (standardPow_of_overflow h).symm
  · next h => exact (standardPow_of_domain h).symm

/-- **The sign of a power.**  A power is a NaN exactly for a NaN operand, unless the other operand
alone makes the power one, and for a finite negative base with a finite exponent between two
integers.  Every other power has a sign exactly if the base has it and the exponent is an odd
integer, and no number from `2 ^ 53` on is one.  Zero has an infinity for every negative exponent. -/
theorem pow_sign (base exponent : Binary64) :
    (pow base exponent = nan ↔
      (base = nan ∧ ∀ t, exponent ≠ zero t) ∨ (exponent = nan ∧ base ≠ one false) ∨
      ((base.isFinite = true ∧ base.value < 0) ∧
        exponent.isFinite = true ∧ ¬exponent.IsIntegral)) ∧
    (pow base exponent ≠ nan →
      ((pow base exponent).neg = true ↔
        base.neg = true ∧ base ≠ nan ∧ exponent.IsOddInteger)) ∧
    (2 ^ 53 ≤ |exponent.value| → ¬exponent.IsOddInteger) ∧
    (exponent = inf true ∨ exponent.isFinite = true ∧ exponent.value < 0 →
      ∀ s, ∃ t, pow (zero s) exponent = inf t) := by
  refine ⟨?_, ?_, not_isOddInteger_of_le, ?_⟩
  · rw [pow_eq_standardPow]
    exact standardPow_eq_nan_iff base exponent
  · intro h
    rw [pow_eq_standardPow] at h ⊢
    rw [neg_standardPow h, Bool.and_eq_true, isOdd_iff]
    have hnan (hneg : base.neg = true) : base ≠ nan := by
      rintro rfl
      cases hneg
    constructor
    · rintro ⟨hneg, hodd⟩
      exact ⟨hneg, hnan hneg, hodd⟩
    · rintro ⟨hneg, -, hodd⟩
      exact ⟨hneg, hodd⟩
  · intro hexponent s
    rw [pow_eq_standardPow]
    rcases hexponent with rfl | ⟨hfinite, hneg⟩
    · -- The pole has no sign: an infinite exponent is not odd.
      exact ⟨false, by cases s <;> decide +kernel⟩
    · cases exponent with
      | nan => cases hfinite
      | inf t => cases hfinite
      | finite t n =>
        obtain ⟨rfl, hn⟩ := value_neg_iff.mp hneg
        exact ⟨_, (standardPow_zero s true hn).trans (if_pos rfl)⟩

/-- The cube of a great negative number is refused, and it is the negative infinity. -/
theorem pow_greatCube :
    checkedPow (finite true ⟨2 ^ 52, 2045, by decide⟩) (finite false ⟨3 * 2 ^ 51, 1023, by decide⟩) =
        .error .overflow ∧
      (finite false ⟨3 * 2 ^ 51, 1023, by decide⟩).IsOddInteger ∧
      pow (finite true ⟨2 ^ 52, 2045, by decide⟩) (finite false ⟨3 * 2 ^ 51, 1023, by decide⟩) ≠
        nan ∧
      (pow (finite true ⟨2 ^ 52, 2045, by decide⟩)
        (finite false ⟨3 * 2 ^ 51, 1023, by decide⟩)).neg = true := by
  have hrefusal : checkedPow (finite true ⟨2 ^ 52, 2045, by decide⟩)
      (finite false ⟨3 * 2 ^ 51, 1023, by decide⟩) = .error .overflow := by decide +kernel
  have hodd : (finite false ⟨3 * 2 ^ 51, 1023, by decide⟩).IsOddInteger :=
    (isOdd_iff _).mp (by decide +kernel)
  have hnan : pow (finite true ⟨2 ^ 52, 2045, by decide⟩)
      (finite false ⟨3 * 2 ^ 51, 1023, by decide⟩) ≠ nan := by decide +kernel
  obtain ⟨-, hsign, -⟩ := pow_sign (finite true ⟨2 ^ 52, 2045, by decide⟩)
    (finite false ⟨3 * 2 ^ 51, 1023, by decide⟩)
  exact ⟨hrefusal, hodd, hnan, (hsign hnan).mpr ⟨rfl, Binary64.noConfusion, hodd⟩⟩

end Binary64

end Calculator
