/-
  Calculator/Proofs/Number/Integers.lean
  ======================================
  **Rounding to an integer is exact.**  A magnitude from `2 ^ 52` on is an integer,
  and every integer up to `2 ^ 52` is a magnitude.  So the integers on both sides of
  a magnitude are magnitudes, and taking one of them needs no rounding.

  What a magnitude has above its integral part is its remainder by one, and that is
  a magnitude too.  The difference that decides which way the nearest integer lies
  is therefore exact, also just below one half and where the spacing of the numbers
  reaches one.

  The three functions differ in nothing but the integer that they take for a
  magnitude and a sign.  That an integer is left alone, that a second rounding
  changes nothing, and how a rounding goes with the opposite number follow from
  that integer alone.
-/
import Calculator.Proofs.Number.Remainder

namespace Calculator

namespace Magnitude

/-! ### Integers near a magnitude -/

theorem units_one : one.units = unitsPerOne := by decide +kernel

/-- The exponent of the units in one, behind a name that nothing evaluates. -/
theorem exists_unitsPerOne_eq : ∃ n, n = 1074 ∧ unitsPerOne = 2 ^ n := ⟨1074, rfl, rfl⟩

theorem units_lt_of_not_isWhole {m : Magnitude} (h : ¬m.isWhole = true) :
    m.units < 2 ^ 52 * unitsPerOne := by
  obtain ⟨n, -, hn⟩ := exists_unitsPerOne_eq
  have hexp : m.exp < n := by
    apply Nat.lt_of_not_le
    intro hle
    obtain ⟨j, hj⟩ := exists_units_eq hle
    apply h
    rw [isWhole, hj, hn, Nat.mul_mod_left]
    rfl
  have hpow : 2 ^ (m.exp + 1) ≤ 2 ^ n := Nat.pow_le_pow_right (by decide) hexp
  have hlt := m.units_lt
  rw [Nat.pow_succ] at hpow
  omega

/-- The integers next to a magnitude are magnitudes. -/
theorem exists_units_eq_whole (m : Magnitude) {k : Nat} (hwhole : m.isWhole = true → k = m.whole)
    (hle : k ≤ m.whole + 1) : ∃ d : Magnitude, d.units = k * unitsPerOne := by
  by_cases h : m.isWhole = true
  · refine ⟨m, ?_⟩
    rw [hwhole h, whole_mul_unitsPerOne h]
  · obtain ⟨n, hn, hpow⟩ := exists_unitsPerOne_eq
    have hlt : m.whole < 2 ^ 52 :=
      Nat.div_lt_of_lt_mul ((units_lt_of_not_isWhole h).trans_eq (Nat.mul_comm _ _))
    rw [hpow]
    exact exists_units_eq_mul (by omega) (by omega)

theorem natCast_le_value {k : ℕ} {m : Magnitude} :
    (k : ℚ) ≤ m.value ↔ k * unitsPerOne ≤ m.units := by
  rw [value, le_div_iff₀ cast_unitsPerOne_pos, ← Nat.cast_mul, Nat.cast_le]

theorem isWhole_of_le_value {m : Magnitude} (h : 2 ^ 52 ≤ m.value) : m.isWhole = true := by
  have hunits : 2 ^ 52 * unitsPerOne ≤ m.units := natCast_le_value.mp (by exact_mod_cast h)
  by_contra hfraction
  exact (units_lt_of_not_isWhole hfraction).not_ge hunits

theorem floor_value (m : Magnitude) : ⌊m.value⌋ = m.whole := by
  rw [value, Rat.floor_natCast_div_natCast]
  rfl

/-- The quotient away from zero is the least one that is not too small. -/
theorem augmented_bounds (units : Nat) : units ≤ Binary64.augmented units * unitsPerOne ∧
    Binary64.augmented units * unitsPerOne < units + unitsPerOne := by
  have hdiv := Nat.div_add_mod' (units + (unitsPerOne - 1)) unitsPerOne
  have hmod := Nat.mod_lt (units + (unitsPerOne - 1)) unitsPerOne_pos
  rw [Binary64.augmented]
  omega

theorem ceil_value (m : Magnitude) : ⌈m.value⌉ = Binary64.augmented m.units := by
  obtain ⟨hlow, hhigh⟩ := augmented_bounds m.units
  have hlow' : (m.units : ℚ) ≤ Binary64.augmented m.units * unitsPerOne := by exact_mod_cast hlow
  have hhigh' : (Binary64.augmented m.units * unitsPerOne : ℚ) < m.units + unitsPerOne := by
    exact_mod_cast hhigh
  rw [Int.ceil_eq_iff, Int.cast_natCast, value, div_le_iff₀ cast_unitsPerOne_pos,
    lt_div_iff₀ cast_unitsPerOne_pos]
  constructor
  · linarith
  · exact hlow'

/-- The half that is added first decides which integer is nearest. -/
theorem floor_value_add_half (m : Magnitude) :
    ⌊m.value + 1 / 2⌋ =
      if unitsPerOne ≤ 2 * (m.units % unitsPerOne) then (m.whole : ℤ) + 1 else m.whole := by
  have hpos : (0 : ℚ) < unitsPerOne := cast_unitsPerOne_pos
  have hmod := Nat.mod_lt m.units unitsPerOne_pos
  have hunits : (m.units : ℚ) = m.whole * unitsPerOne + (m.units % unitsPerOne : ℕ) := by
    exact_mod_cast (Nat.div_add_mod' m.units unitsPerOne).symm
  have hvalue : m.value = m.whole + (m.units % unitsPerOne : ℕ) / unitsPerOne := by
    rw [value, hunits, add_div, mul_div_cancel_right₀ _ hpos.ne']
  generalize m.units % unitsPerOne = r at *
  generalize unitsPerOne = n at *
  have hlt : (r : ℚ) / n < 1 := by
    rw [div_lt_one hpos]
    exact_mod_cast hmod
  have hnonneg : (0 : ℚ) ≤ r / n := by positivity
  rw [Int.floor_eq_iff, hvalue]
  split
  · next hhalf =>
    have hle : (1 / 2 : ℚ) ≤ r / n := by
      rw [le_div_iff₀ hpos]
      have hcast : (n : ℚ) ≤ 2 * r := by exact_mod_cast hhalf
      linarith
    push_cast
    constructor <;> linarith
  · next hhalf =>
    have hless : (r / n : ℚ) < 1 / 2 := by
      rw [div_lt_iff₀ hpos]
      have hcast : (2 * r : ℚ) < n := by exact_mod_cast Nat.lt_of_not_le hhalf
      linarith
    push_cast
    constructor <;> linarith

theorem value_zero : zero.value = 0 := by
  have hunits : zero.units = 0 := by decide
  rw [value, hunits, Nat.cast_zero, zero_div]

theorem eq_of_value_eq {m d : Magnitude} (h : m.value = d.value) : m = d := by
  rw [value, value, div_left_inj' cast_unitsPerOne_pos.ne'] at h
  exact eq_of_units_eq (by exact_mod_cast h)

end Magnitude

namespace Binary64

theorem ofUnits_natCast (n : ℕ) : ofUnits false n = ofRatio false n 1 := by
  have hsign : decide ((n : Int) < 0) = false := decide_eq_false (by omega)
  rw [ofUnits, hsign, ite_self, Int.natAbs_natCast]

/-! ### Functions to the integers -/

theorem ofWhole_spec (s : Bool) (m : Magnitude) {k : Nat}
    (hwhole : m.isWhole = true → k = m.whole) (hle : k ≤ m.whole + 1) :
    ∃ d : Magnitude, ofWhole s k = finite s d ∧ d.units = k * unitsPerOne ∧ d.value = k := by
  obtain ⟨d, hd⟩ := m.exists_units_eq_whole hwhole hle
  refine ⟨d, ?_, hd, ?_⟩
  · rw [ofWhole, ← hd]
    exact ofRatio_units s d
  · rw [Magnitude.value, hd, Nat.cast_mul, mul_div_cancel_right₀ _ cast_unitsPerOne_pos.ne']

/-- What a magnitude has above its integral part is not rounded. -/
theorem exists_excess_eq (m : Magnitude) :
    ∃ d : Magnitude, excess m = finite false d ∧ d.units = m.units % unitsPerOne := by
  obtain ⟨w, hw, hunits, -⟩ := ofWhole_spec false m (fun _ => rfl) (Nat.le_succ m.whole)
  have hone : Magnitude.one.units ≠ 0 := by
    rw [Magnitude.units_one]
    exact unitsPerOne_pos.ne'
  obtain ⟨d, hd⟩ := m.exists_units_eq_mod hone
  rw [Magnitude.units_one] at hd
  have hdifference : (finite false m).units + (finite true w).units = (d.units : ℕ) := by
    have hdiv := Nat.div_add_mod' m.units unitsPerOne
    rw [← hd, ← Magnitude.whole, ← hunits] at hdiv
    rw [units, units]
    omega
  have hsum : excess m = ofUnits false ((finite false m).units + (finite true w).units) := by
    rw [excess, hw]
    rfl
  refine ⟨d, ?_, hd⟩
  rw [hsum, hdifference, ofUnits_natCast]
  exact ofRatio_units false d

/-- A function that takes a finite number to the integer given for its sign and magnitude, with
the number's sign, and leaves the others alone. -/
structure RoundsBy (f : Binary64 → Binary64) (toInt : Bool → ℚ → ℤ) : Prop where
  finite : ∀ s m, ∃ d : Magnitude, f (finite s m) = .finite s d ∧ d.value = toInt s m.value
  inf : ∀ s, f (inf s) = .inf s
  nan : f nan = .nan

theorem exists_truncated_eq (s : Bool) (m : Magnitude) :
    ∃ d : Magnitude, ofWhole s (truncated m.units) = finite s d ∧ d.value = ⌊m.value⌋ := by
  obtain ⟨d, hd, -, hvalue⟩ := ofWhole_spec s m (fun _ => rfl) (Nat.le_succ m.whole)
  refine ⟨d, hd, ?_⟩
  rw [hvalue, m.floor_value, Int.cast_natCast]

theorem exists_augmented_eq (s : Bool) (m : Magnitude) :
    ∃ d : Magnitude, ofWhole s (augmented m.units) = finite s d ∧ d.value = ⌈m.value⌉ := by
  have hwhole (h : m.isWhole = true) : augmented m.units = m.whole := by
    have hceil := m.ceil_value
    rw [Magnitude.value_of_isWhole h, Int.ceil_natCast] at hceil
    exact (Int.ofNat.inj hceil).symm
  have hle : augmented m.units ≤ m.whole + 1 := by
    have hnext := Int.ceil_le_floor_add_one m.value
    rw [m.ceil_value, m.floor_value] at hnext
    exact_mod_cast hnext
  obtain ⟨d, hd, -, hvalue⟩ := ofWhole_spec s m hwhole hle
  refine ⟨d, hd, ?_⟩
  rw [hvalue, m.ceil_value, Int.cast_natCast]

theorem isHalfOrMore_excess (m : Magnitude) :
    (excess m).isHalfOrMore = decide (unitsPerOne ≤ 2 * (m.units % unitsPerOne)) := by
  obtain ⟨d, hd, hunits⟩ := exists_excess_eq m
  rw [hd, ← hunits, isHalfOrMore, Bool.not_false, Bool.true_and]

theorem roundsBy_roundTo {wholeOf : Bool → Nat → Nat} {toInt : Bool → ℚ → ℤ}
    (h : ∀ s (m : Magnitude), ∃ d : Magnitude,
      ofWhole s (wholeOf s m.units) = finite s d ∧ d.value = toInt s m.value) :
    RoundsBy (roundTo wholeOf) toInt := by
  refine ⟨?_, fun s => rfl, rfl⟩
  intro s m
  rw [roundTo]
  exact h s m

theorem roundsBy_floor : RoundsBy floor fun s q => if s then ⌈q⌉ else ⌊q⌋ := by
  apply roundsBy_roundTo
  intro s m
  cases s with
  | false =>
    rw [if_neg Bool.false_ne_true, if_neg Bool.false_ne_true]
    exact exists_truncated_eq false m
  | true =>
    rw [if_pos rfl, if_pos rfl]
    exact exists_augmented_eq true m

theorem roundsBy_ceil : RoundsBy ceil fun s q => if s then ⌊q⌋ else ⌈q⌉ := by
  apply roundsBy_roundTo
  intro s m
  cases s with
  | false =>
    rw [if_neg Bool.false_ne_true, if_neg Bool.false_ne_true]
    exact exists_augmented_eq false m
  | true =>
    rw [if_pos rfl, if_pos rfl]
    exact exists_truncated_eq true m

theorem round_finite (s : Bool) (m : Magnitude) :
    round (finite s m) = ofWhole s
      (if unitsPerOne ≤ 2 * (m.units % unitsPerOne) then m.whole + 1 else m.whole) := by
  rw [round, isHalfOrMore_excess]
  by_cases hhalf : unitsPerOne ≤ 2 * (m.units % unitsPerOne)
  · rw [decide_eq_true hhalf, if_pos rfl, if_pos hhalf]
  · rw [decide_eq_false hhalf, if_neg Bool.false_ne_true, if_neg hhalf]

theorem roundsBy_round : RoundsBy round fun _ q => ⌊q + 1 / 2⌋ := by
  refine ⟨?_, fun s => rfl, rfl⟩
  intro s m
  rw [round_finite, m.floor_value_add_half]
  by_cases hhalf : unitsPerOne ≤ 2 * (m.units % unitsPerOne)
  · have hfraction (h : m.isWhole = true) : m.whole + 1 = m.whole := by
      have hmod : m.units % unitsPerOne = 0 := of_decide_eq_true h
      have hpos := unitsPerOne_pos
      omega
    obtain ⟨d, hd, -, hvalue⟩ := ofWhole_spec s m hfraction (Nat.le_refl _)
    rw [if_pos hhalf, if_pos hhalf]
    refine ⟨d, hd, ?_⟩
    rw [hvalue, Nat.cast_add, Nat.cast_one, Int.cast_add, Int.cast_natCast, Int.cast_one]
  · obtain ⟨d, hd, -, hvalue⟩ := ofWhole_spec s m (fun _ => rfl) (Nat.le_succ m.whole)
    rw [if_neg hhalf, if_neg hhalf]
    refine ⟨d, hd, ?_⟩
    rw [hvalue, Int.cast_natCast]

namespace RoundsBy

variable {f g : Binary64 → Binary64} {toInt other : Bool → ℚ → ℤ}

theorem eq_self (h : RoundsBy f toInt) (hint : ∀ s (n : ℤ), toInt s n = n) {s : Bool}
    {m : Magnitude} {n : ℤ} (hm : m.value = n) : f (.finite s m) = .finite s m := by
  obtain ⟨d, hd, hvalue⟩ := h.finite s m
  rw [hm, hint, ← hm] at hvalue
  rw [hd, Magnitude.eq_of_value_eq hvalue]

theorem isExactly (h : RoundsBy f toInt) (s : Bool) (m : Magnitude) :
    (f (.finite s m)).IsExactly s (withSign s (toInt s m.value)) := by
  obtain ⟨d, hd, hvalue⟩ := h.finite s m
  rw [hd]
  refine ⟨⟨d, rfl⟩, ?_⟩
  rw [value_finite, hvalue]

theorem idempotent (h : RoundsBy f toInt) (hint : ∀ s (n : ℤ), toInt s n = n) (x : Binary64) :
    f (f x) = f x := by
  cases x with
  | nan => rw [h.nan, h.nan]
  | inf s => rw [h.inf, h.inf]
  | finite s m =>
    obtain ⟨d, hd, hvalue⟩ := h.finite s m
    rw [hd]
    exact h.eq_self hint hvalue

theorem eq_self_of_large (h : RoundsBy f toInt) (hint : ∀ s (n : ℤ), toInt s n = n)
    {s : Bool} {m : Magnitude} (hm : 2 ^ 52 ≤ m.value) : f (.finite s m) = .finite s m := by
  have hwhole : m.value = (m.whole : ℤ) := by
    rw [Magnitude.value_of_isWhole (Magnitude.isWhole_of_le_value hm), Int.cast_natCast]
  exact h.eq_self hint hwhole

theorem negate (hf : RoundsBy f toInt) (hg : RoundsBy g other)
    (hsign : ∀ s q, other (!s) q = toInt s q) (x : Binary64) : g x.negate = (f x).negate := by
  cases x with
  | nan => rw [hf.nan]; exact hg.nan
  | inf s => rw [hf.inf]; exact hg.inf (!s)
  | finite s m =>
    obtain ⟨d, hd, hvalue⟩ := hf.finite s m
    obtain ⟨e, he, hopposite⟩ := hg.finite (!s) m
    rw [hsign, ← hvalue] at hopposite
    rw [hd]
    exact he.trans (congrArg (Binary64.finite (!s)) (Magnitude.eq_of_value_eq hopposite))

end RoundsBy

/-! ### Exact roundings -/

theorem floor_isExactly (s : Bool) (m : Magnitude) :
    (floor (finite s m)).IsExactly s ⌊(finite s m).value⌋ := by
  have hexactly := roundsBy_floor.isExactly s m
  rw [value_finite]
  cases s with
  | false => exact hexactly
  | true => simpa [withSign, Int.floor_neg] using hexactly

theorem ceil_isExactly (s : Bool) (m : Magnitude) :
    (ceil (finite s m)).IsExactly s ⌈(finite s m).value⌉ := by
  have hexactly := roundsBy_ceil.isExactly s m
  rw [value_finite]
  cases s with
  | false => exact hexactly
  | true => simpa [withSign, Int.ceil_neg] using hexactly

theorem round_isExactly (s : Bool) (m : Magnitude) :
    (round (finite s m)).IsExactly s (withSign s ⌊|(finite s m).value| + 1 / 2⌋) := by
  rw [abs_value_finite]
  exact roundsBy_round.isExactly s m

theorem round_of_lt_half (s : Bool) {m : Magnitude} (h : m.value < 1 / 2) :
    round (finite s m) = zero s := by
  obtain ⟨d, hd, hvalue⟩ := roundsBy_round.finite s m
  have hnonneg := m.value_nonneg
  have hfloor : ⌊m.value + 1 / 2⌋ = 0 := by
    rw [Int.floor_eq_zero_iff]
    constructor <;> linarith
  rw [hfloor, Int.cast_zero, ← Magnitude.value_zero] at hvalue
  rw [hd, Magnitude.eq_of_value_eq hvalue, zero]

/-- **Rounding to an integer is exact.**  Of a finite number the three functions give the greatest
integer not above it, the least one not below it, and the nearest one, a half away from zero, each
with the sign of the number and without rounding.  Below one half the nearest integer is zero, and
from `2 ^ 52` on nothing changes.  An infinity and a NaN stay, the functions go with the opposite
number, and a second rounding changes nothing. -/
theorem roundings_exact (x : Binary64) :
    (x.isFinite = true →
      (floor x).IsExactly x.neg ⌊x.value⌋ ∧ (ceil x).IsExactly x.neg ⌈x.value⌉ ∧
      (round x).IsExactly x.neg (withSign x.neg ⌊|x.value| + 1 / 2⌋) ∧
      (|x.value| < 1 / 2 → round x = zero x.neg) ∧
      (2 ^ 52 ≤ |x.value| → floor x = x ∧ ceil x = x ∧ round x = x)) ∧
    (x.isFinite = false → floor x = x ∧ ceil x = x ∧ round x = x) ∧
    ceil x.negate = (floor x).negate ∧ round x.negate = (round x).negate ∧
    floor (floor x) = floor x ∧ ceil (ceil x) = ceil x ∧ round (round x) = round x := by
  have hfloor (s : Bool) (n : ℤ) : (if s then ⌈(n : ℚ)⌉ else ⌊(n : ℚ)⌋) = n := by
    rw [Int.ceil_intCast, Int.floor_intCast, ite_self]
  have hceil (s : Bool) (n : ℤ) : (if s then ⌊(n : ℚ)⌋ else ⌈(n : ℚ)⌉) = n := by
    rw [Int.ceil_intCast, Int.floor_intCast, ite_self]
  have hround (_ : Bool) (n : ℤ) : ⌊(n : ℚ) + 1 / 2⌋ = n := by
    rw [Int.floor_intCast_add]
    norm_num
  refine ⟨?_, ?_, ?_, ?_, roundsBy_floor.idempotent hfloor x, roundsBy_ceil.idempotent hceil x,
    roundsBy_round.idempotent hround x⟩
  · intro hx
    cases x with
    | nan => cases hx
    | inf s => cases hx
    | finite s m =>
      refine ⟨floor_isExactly s m, ceil_isExactly s m, round_isExactly s m, ?_, ?_⟩
      · rw [abs_value_finite]
        exact round_of_lt_half s
      · rw [abs_value_finite]
        intro hlarge
        exact ⟨roundsBy_floor.eq_self_of_large hfloor hlarge,
          roundsBy_ceil.eq_self_of_large hceil hlarge,
          roundsBy_round.eq_self_of_large hround hlarge⟩
  · intro hx
    cases x with
    | nan => exact ⟨rfl, rfl, rfl⟩
    | inf s => exact ⟨rfl, rfl, rfl⟩
    | finite s m => cases hx
  · apply roundsBy_floor.negate roundsBy_ceil
    intro s q
    cases s <;> rfl
  · apply roundsBy_round.negate roundsBy_round
    intro s q
    rfl

/-- The greatest number below one half. -/
def belowHalf : Binary64 := finite false ⟨2 ^ 53 - 1, 1020, by decide⟩

/-- The sum of the greatest number below one half and one half is rounded to one, but the number
is not. -/
theorem round_belowHalf :
    |belowHalf.value| < 1 / 2 ∧ floor (add belowHalf (finite false ⟨2 ^ 52, 1021, by decide⟩)) =
      one false ∧ round belowHalf = zero false := by
  have hpos : (0 : ℚ) < unitsPerOne := cast_unitsPerOne_pos
  have hunits : 2 * Magnitude.units ⟨2 ^ 53 - 1, 1020, by decide⟩ < unitsPerOne := by decide +kernel
  have hlt : |belowHalf.value| < 1 / 2 := by
    rw [belowHalf, abs_value_finite, Magnitude.value, div_lt_iff₀ hpos]
    generalize Magnitude.units ⟨2 ^ 53 - 1, 1020, by decide⟩ = u at hunits
    generalize unitsPerOne = n at hunits
    have hcast : (2 * u : ℚ) < n := by exact_mod_cast hunits
    linarith
  have hsum : floor (add belowHalf (finite false ⟨2 ^ 52, 1021, by decide⟩)) = one false := by
    decide +kernel
  obtain ⟨-, -, -, hround, -⟩ := (roundings_exact belowHalf).1 rfl
  exact ⟨hlt, hsum, hround hlt⟩

end Binary64

end Calculator
