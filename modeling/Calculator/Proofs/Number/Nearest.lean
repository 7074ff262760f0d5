/-
  Calculator/Proofs/Number/Nearest.lean
  =====================================
  **The number nearest to a rational.**  A magnitude has a rational value, and
  the magnitudes nearest to a rational are those that no other one is closer to.
  Two of them can be equally near.  Then they are neighbours, and one of two
  neighbours has an even significand, since between two magnitudes with even
  significands there always lies a third.  So at most one magnitude is nearest
  with ties to even, and the greater of two rationals never has the smaller one.

  A rational from `2 ^ 1024 - 2 ^ 970` on is rounded to an infinity.  That is
  half way from the greatest magnitude, whose significand is odd, to the one that
  would follow it if the format went on.
-/
import Calculator.Proofs.Number.ReadBack
import Mathlib.Algebra.Order.Field.Rat
import Mathlib.Algebra.Order.Group.Abs
import Mathlib.Tactic.Linarith
import Mathlib.Tactic.FieldSimp
import Mathlib.Tactic.Positivity

namespace Calculator

theorem unitsPerOne_pos : 0 < unitsPerOne := by
  obtain ⟨n, hn⟩ : ∃ n, unitsPerOne = 2 ^ n := ⟨1074, rfl⟩
  rw [hn]
  exact Nat.two_pow_pos n

theorem cast_unitsPerOne_pos : (0 : ℚ) < unitsPerOne := Nat.cast_pos.mpr unitsPerOne_pos

namespace Magnitude

/-! ### The order of magnitudes -/

theorem units_lt (m : Magnitude) : m.units < 2 ^ 53 * 2 ^ m.exp :=
  Nat.mul_lt_mul_of_pos_right m.canonical.1 (Nat.two_pow_pos m.exp)

theorem le_units {m : Magnitude} (h : m.exp ≠ 0) : 2 ^ 52 * 2 ^ m.exp ≤ m.units :=
  Nat.mul_le_mul_right _ (m.canonical.2.2.resolve_left h)

theorem eq_of_units_eq {m d : Magnitude} (h : m.units = d.units) : m = d := by
  have hm := nearest?_units m
  rw [h, nearest?_units d] at hm
  exact (Option.some.inj hm).symm

theorem exp_le_of_units_le {m d : Magnitude} (h : m.units ≤ d.units) : m.exp ≤ d.exp := by
  by_contra hlt
  have hlow : 2 ^ 52 * 2 ^ m.exp ≤ m.units := le_units (by omega)
  have hpow : 2 ^ (d.exp + 1) ≤ 2 ^ m.exp := Nat.pow_le_pow_right (by decide) (by omega)
  have hhigh := d.units_lt
  rw [Nat.pow_succ] at hpow
  omega

/-- A magnitude with at least a given exponent is on the grid of that exponent. -/
theorem exists_units_eq {m : Magnitude} {e : Nat} (h : e ≤ m.exp) : ∃ j, m.units = j * 2 ^ e := by
  obtain ⟨n, hn⟩ := Nat.exists_eq_add_of_le h
  refine ⟨m.mant * 2 ^ n, ?_⟩
  rw [units, hn, Nat.pow_add, Nat.mul_assoc, Nat.mul_comm (2 ^ e)]

/-- Neighbours have significands of different parity. -/
theorem exists_between {m d : Magnitude} (hm : m.mant % 2 = 0) (hd : d.mant % 2 = 0)
    (h : m.units < d.units) : ∃ b : Magnitude, m.units < b.units ∧ b.units < d.units := by
  obtain ⟨hmant, hexp, hnormal⟩ := m.canonical
  have hcanonical : m.mant + 1 < 2 ^ 53 ∧ m.exp ≤ 2045 ∧ (m.exp = 0 ∨ 2 ^ 52 ≤ m.mant + 1) := by
    omega
  have hstep : Magnitude.units ⟨m.mant + 1, m.exp, hcanonical⟩ = m.units + 2 ^ m.exp :=
    Nat.succ_mul m.mant (2 ^ m.exp)
  have hpos : 0 < 2 ^ m.exp := Nat.two_pow_pos m.exp
  refine ⟨⟨m.mant + 1, m.exp, hcanonical⟩, by omega, ?_⟩
  obtain ⟨j, hj⟩ := exists_units_eq (exp_le_of_units_le h.le)
  have hle : Magnitude.units ⟨m.mant + 1, m.exp, hcanonical⟩ ≤ d.units := by
    have hlt : m.mant < j := by
      rw [hj] at h
      exact Nat.lt_of_mul_lt_mul_right h
    rw [hj]
    exact Nat.mul_le_mul_right (2 ^ m.exp) hlt
  apply Nat.lt_of_le_of_ne hle
  intro heq
  obtain rfl := eq_of_units_eq heq
  dsimp only at hd
  omega

/-! ### Values -/

/-- The value of a magnitude. -/
def value (m : Magnitude) : ℚ := m.units / unitsPerOne

theorem value_lt_value {m d : Magnitude} : m.value < d.value ↔ m.units < d.units := by
  rw [value, value, div_lt_div_iff_of_pos_right cast_unitsPerOne_pos, Nat.cast_lt]

/-! ### Nearest magnitudes -/

/-- A magnitude that no other one is closer to `q` than, with an even significand if another
one is equally close. -/
structure IsNearest (q : ℚ) (m : Magnitude) : Prop where
  nearest : ∀ d : Magnitude, |q - m.value| ≤ |q - d.value|
  even : ∀ d : Magnitude, d ≠ m → |q - d.value| = |q - m.value| → m.mant % 2 = 0

section Midpoint

variable {a b q : ℚ}

theorem add_le_of_abs_le (hab : a < b) (h : |q - b| ≤ |q - a|) : a + b ≤ 2 * q := by
  by_contra hlt
  have hneg : q - b < 0 := by linarith
  rw [abs_of_neg hneg, le_abs] at h
  rcases h with h | h <;> linarith

theorem le_add_of_abs_le (hab : a < b) (h : |q - a| ≤ |q - b|) : 2 * q ≤ a + b := by
  by_contra hlt
  have hpos : 0 < q - a := by linarith
  rw [abs_of_pos hpos, le_abs] at h
  rcases h with h | h <;> linarith

/-- Whatever lies between two numbers is closer to their midpoint than they are. -/
theorem abs_lt_of_between {c : ℚ} (hmid : a + b = 2 * q) (hac : a < c) (hcb : c < b) :
    |q - c| < |q - a| := by
  have hpos : 0 < q - a := by linarith
  rw [abs_of_pos hpos, abs_lt]
  constructor <;> linarith

end Midpoint

/-- The nearest magnitude grows with the rational. -/
theorem IsNearest.monotone {q r : ℚ} {m d : Magnitude} (hm : IsNearest q m) (hd : IsNearest r d)
    (hqr : q ≤ r) : m.units ≤ d.units := by
  by_contra hlt
  have hunits : d.units < m.units := Nat.lt_of_not_le hlt
  have hvalue : d.value < m.value := value_lt_value.mpr hunits
  have hne : d ≠ m := fun heq => (heq ▸ hunits).false
  -- Both rationals are at the midpoint.
  have hq : d.value + m.value ≤ 2 * q := add_le_of_abs_le hvalue (hm.nearest d)
  have hr : 2 * r ≤ d.value + m.value := le_add_of_abs_le hvalue (hd.nearest m)
  obtain rfl : q = r := by linarith
  have hmid : d.value + m.value = 2 * q := by linarith
  have htie : |q - d.value| = |q - m.value| := le_antisymm (hd.nearest m) (hm.nearest d)
  obtain ⟨b, hdb, hbm⟩ := exists_between (hd.even m hne.symm htie.symm) (hm.even d hne htie) hunits
  have hcloser : |q - b.value| < |q - d.value| :=
    abs_lt_of_between hmid (value_lt_value.mpr hdb) (value_lt_value.mpr hbm)
  exact (hd.nearest b).not_gt hcloser

theorem IsNearest.unique {q : ℚ} {m d : Magnitude} (hm : IsNearest q m) (hd : IsNearest q d) :
    m = d :=
  eq_of_units_eq (Nat.le_antisymm (hm.monotone hd le_rfl) (hd.monotone hm le_rfl))

end Magnitude

/-! ### Nearest numbers -/

/-- The least rational that is rounded to an infinity. -/
def overflowThreshold : ℚ := 2 ^ 1024 - 2 ^ 970

namespace Binary64

/-- The number of a given sign whose magnitude is nearest to `q`, ties to even, or the infinity
if `q` is too large. -/
inductive IsNearest (neg : Bool) (q : ℚ) : Binary64 → Prop where
  | finite {m : Magnitude} (hlt : q < overflowThreshold) (hm : m.IsNearest q) :
      IsNearest neg q (.finite neg m)
  | inf (hle : overflowThreshold ≤ q) : IsNearest neg q (.inf neg)

/-- The order of numbers, in which a NaN has no place. -/
def AtMost : Binary64 → Binary64 → Prop
  | nan, _ => False
  | _, nan => False
  | inf true, _ => True
  | _, inf false => True
  | finite s m, finite t d => (finite s m).units ≤ (finite t d).units
  | _, _ => False

section Nearest

variable {q r : ℚ} {x y : Binary64}

theorem isNearest_inf_iff {neg : Bool} (h : IsNearest neg q x) :
    x = inf neg ↔ overflowThreshold ≤ q := by
  cases h with
  | finite hlt hm => exact iff_of_false (by simp) hlt.not_ge
  | inf hle => exact iff_of_true rfl hle

theorem IsNearest.unique {neg : Bool} (hx : IsNearest neg q x) (hy : IsNearest neg q y) :
    x = y := by
  cases hx with
  | inf hle => exact ((isNearest_inf_iff hy).mpr hle).symm
  | finite hlt hm =>
    cases hy with
    | inf hle => exact absurd hle hlt.not_ge
    | finite hlt' hd => rw [hm.unique hd]

theorem IsNearest.monotone (hx : IsNearest false q x) (hy : IsNearest false r y) (hqr : q ≤ r) :
    AtMost x y := by
  cases hx with
  | inf hle =>
    obtain rfl := (isNearest_inf_iff hy).mpr (hle.trans hqr)
    trivial
  | finite hlt hm =>
    cases hy with
    | inf hle => trivial
    | finite hlt' hd => exact Int.ofNat_le.mpr (hm.monotone hd hqr)

end Nearest

end Binary64

end Calculator
