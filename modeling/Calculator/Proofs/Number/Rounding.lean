/-
  Calculator/Proofs/Number/Rounding.lean
  ======================================
  **Rounding is correct.**  A quotient is rounded on the grid of its own exponent,
  whose points lie at most half a step away.  Every magnitude with that exponent
  or a greater one is a point of the grid.  Every other one is less than the
  quotient and less than the first point with 53 bits, which lies between the
  two, and so it is farther away than that point.  The nearest point of the grid
  is therefore nearest among all magnitudes.
-/
import Calculator.Proofs.Number.Nearest
import Mathlib.Data.Rat.Cast.Order
import Mathlib.Tactic.LinearCombination
import Mathlib.Tactic.Ring

namespace Calculator

/-! ### Rounding to a whole number -/

section DivHalfEven

variable {num den : Nat}

theorem divHalfEven_bounds (hden : 0 < den) :
    2 * (divHalfEven num den * den) ≤ 2 * num + den ∧
      2 * num ≤ 2 * (divHalfEven num den * den) + den := by
  have hdiv := Nat.div_add_mod num den
  have hmod := Nat.mod_lt num hden
  rw [Nat.mul_comm] at hdiv
  unfold divHalfEven
  dsimp only
  split
  · rw [Nat.add_mul]
    omega
  · omega

theorem divHalfEven_tie (hden : 0 < den)
    (h : 2 * (divHalfEven num den * den) = 2 * num + den ∨
      2 * num = 2 * (divHalfEven num den * den) + den) :
    divHalfEven num den % 2 = 0 := by
  have hdiv := Nat.div_add_mod num den
  have hmod := Nat.mod_lt num hden
  rw [Nat.mul_comm] at hdiv
  unfold divHalfEven at h ⊢
  dsimp only at h ⊢
  split at h
  · next hup =>
    rw [if_pos hup]
    rw [Nat.add_mul] at h
    omega
  · next hdown =>
    rw [if_neg hdown]
    omega

end DivHalfEven

/-! ### Rounding on a grid -/

/-- The point `k` of the grid with steps of `2 ^ e` is nearest to `x`, the even one of two, and
the grid is the one of the first 53 bits of `x`. -/
structure RoundsTo (x : ℚ) (e k : Nat) : Prop where
  low : 2 * (k * 2 ^ e : ℚ) ≤ 2 * x + 2 ^ e
  high : 2 * x ≤ 2 * (k * 2 ^ e) + 2 ^ e
  even : 2 * (k * 2 ^ e : ℚ) = 2 * x + 2 ^ e ∨ 2 * x = 2 * (k * 2 ^ e) + 2 ^ e → k % 2 = 0
  coarse : e = 0 ∨ 2 ^ 52 * 2 ^ e ≤ x
  fine : x < 2 ^ 53 * 2 ^ e

/-- The exponent of a whole number is the excess of its length over 53 bits. -/
theorem bounds_of_log2 {n e : Nat} (h : n.log2 - 52 = e) :
    (e = 0 ∨ 2 ^ 52 * 2 ^ e ≤ n) ∧ n < 2 ^ 53 * 2 ^ e := by
  by_cases hzero : n = 0
  · subst hzero
    exact ⟨Or.inl h.symm, Nat.mul_pos (by decide) (Nat.two_pow_pos e)⟩
  · constructor
    · by_cases he : e = 0
      · exact Or.inl he
      · right
        rw [← Nat.pow_add, ← Nat.le_log2 hzero]
        omega
    · rw [← Nat.pow_add, ← Nat.log2_lt hzero]
      omega

theorem roundsTo_divHalfEven {num den e : Nat} (hden : 0 < den)
    (he : (num / den).log2 - 52 = e) :
    RoundsTo (num / den) e (divHalfEven num (den * 2 ^ e)) := by
  have hstep : 0 < den * 2 ^ e := Nat.mul_pos hden (Nat.two_pow_pos e)
  have hpos : (0 : ℚ) < den := Nat.cast_pos.mpr hden
  obtain ⟨hlow, hhigh⟩ := @divHalfEven_bounds num _ hstep
  have htie := @divHalfEven_tie num _ hstep
  obtain ⟨hcoarse, hfine⟩ := bounds_of_log2 he
  generalize divHalfEven num (den * 2 ^ e) = k at hlow hhigh htie
  obtain ⟨x, hx⟩ : ∃ x : ℚ, x = num / den := ⟨_, rfl⟩
  have hnum : (num : ℚ) = x * den := by
    rw [hx]
    field_simp
  rw [← hx]
  refine ⟨?_, ?_, ?_, ?_, ?_⟩
  · have hscaled : (2 * (k * (den * 2 ^ e)) : ℚ) ≤ 2 * num + den * 2 ^ e := by
      exact_mod_cast hlow
    apply le_of_mul_le_mul_right _ hpos
    linarith
  · have hscaled : (2 * num : ℚ) ≤ 2 * (k * (den * 2 ^ e)) + den * 2 ^ e := by
      exact_mod_cast hhigh
    apply le_of_mul_le_mul_right _ hpos
    linarith
  · intro heq
    apply htie
    rcases heq with heq | heq
    · left
      have hscaled : (2 * (k * (den * 2 ^ e)) : ℚ) = 2 * num + den * 2 ^ e := by
        linear_combination (den : ℚ) * heq - 2 * hnum
      exact_mod_cast hscaled
    · right
      have hscaled : (2 * num : ℚ) = 2 * (k * (den * 2 ^ e)) + den * 2 ^ e := by
        linear_combination (den : ℚ) * heq + 2 * hnum
      exact_mod_cast hscaled
  · apply hcoarse.imp_right
    intro hle
    have hscaled : (2 ^ 52 * 2 ^ e * den : ℚ) ≤ num := by
      exact_mod_cast (Nat.le_div_iff_mul_le hden).mp hle
    rw [hnum] at hscaled
    exact le_of_mul_le_mul_right hscaled hpos
  · have hscaled : (num : ℚ) < 2 ^ 53 * 2 ^ e * den := by
      exact_mod_cast (Nat.div_lt_iff_lt_mul hden).mp hfine
    rw [hnum] at hscaled
    exact lt_of_mul_lt_mul_right hscaled hpos.le

/-- A point within half a step of `x` is closer to it than a point at least a step away from
the first one, unless `x` is half a step away. -/
theorem abs_le_of_step {x a b s : ℚ} (hlow : 2 * a ≤ 2 * x + s) (hhigh : 2 * x ≤ 2 * a + s)
    (hstep : b + s ≤ a ∨ a + s ≤ b) :
    |x - a| ≤ |x - b| ∧ (|x - b| = |x - a| → 2 * a = 2 * x + s ∨ 2 * x = 2 * a + s) := by
  have ha : |x - a| ≤ s / 2 := abs_le.mpr ⟨by linarith, by linarith⟩
  have hb : s / 2 ≤ |x - b| := by
    rw [le_abs]
    rcases hstep with hstep | hstep
    · left
      linarith
    · right
      linarith
  refine ⟨ha.trans hb, ?_⟩
  intro heq
  have hhalf : |x - a| = s / 2 := le_antisymm ha (heq ▸ hb)
  rcases eq_or_eq_neg_of_abs_eq hhalf with hxa | hxa
  · right
    linarith
  · left
    linarith

namespace RoundsTo

variable {x : ℚ} {e k : Nat}

theorem le_two_pow (h : RoundsTo x e k) : k ≤ 2 ^ 53 := by
  have hpos : (0 : ℚ) < 2 ^ e := by positivity
  have hlow := h.low
  have hfine := h.fine
  have hcast : (2 * k : ℚ) < 2 * 2 ^ 53 + 1 := by
    apply lt_of_mul_lt_mul_right _ hpos.le
    linarith
  have hnat : 2 * k < 2 * 2 ^ 53 + 1 := by exact_mod_cast hcast
  omega

theorem two_pow_le (h : RoundsTo x e k) : e = 0 ∨ 2 ^ 52 ≤ k := by
  apply h.coarse.imp_right
  intro hcoarse
  have hpos : (0 : ℚ) < 2 ^ e := by positivity
  have hhigh := h.high
  have hcast : (2 * 2 ^ 52 : ℚ) ≤ 2 * k + 1 := by
    apply le_of_mul_le_mul_right _ hpos
    linarith
  have hnat : 2 * 2 ^ 52 ≤ 2 * k + 1 := by exact_mod_cast hcast
  omega

/-- No point of the grid is closer, and an odd point has no other one equally close. -/
theorem grid (h : RoundsTo x e k) (j : Nat) :
    |x - k * 2 ^ e| ≤ |x - j * 2 ^ e| ∧
      (j ≠ k → |x - j * 2 ^ e| = |x - k * 2 ^ e| → k % 2 = 0) := by
  by_cases hjk : j = k
  · subst hjk
    exact ⟨le_rfl, fun hne => absurd rfl hne⟩
  · have hpos : (0 : ℚ) < 2 ^ e := by positivity
    have hstep : (j + 1 : ℚ) ≤ k ∨ (k + 1 : ℚ) ≤ j := by
      rcases Nat.lt_or_gt_of_ne hjk with hlt | hgt
      · left
        exact_mod_cast hlt
      · right
        exact_mod_cast hgt
    have hgap : (j * 2 ^ e + 2 ^ e : ℚ) ≤ k * 2 ^ e ∨ (k * 2 ^ e + 2 ^ e : ℚ) ≤ j * 2 ^ e := by
      apply hstep.imp <;>
      · intro hle
        have hscaled := mul_le_mul_of_nonneg_right hle hpos.le
        linarith
    obtain ⟨hle, htie⟩ := abs_le_of_step h.low h.high hgap
    exact ⟨hle, fun _ heq => h.even (htie heq)⟩

/-- Nor is any magnitude. -/
theorem magnitude (h : RoundsTo x e k) (d : Magnitude) :
    |x - k * 2 ^ e| ≤ |x - d.units| ∧
      (d.units ≠ k * 2 ^ e → |x - d.units| = |x - k * 2 ^ e| → k % 2 = 0) := by
  by_cases hexp : e ≤ d.exp
  · obtain ⟨j, hj⟩ := Magnitude.exists_units_eq hexp
    have hcast : (d.units : ℚ) = j * 2 ^ e := by
      rw [hj]
      push_cast
      rfl
    obtain ⟨hle, htie⟩ := h.grid j
    rw [hcast]
    refine ⟨hle, fun hne => htie ?_⟩
    rintro rfl
    exact hne hj
  · have hcoarse : (2 ^ 52 * 2 ^ e : ℚ) ≤ x := h.coarse.resolve_left (by omega)
    have hbelow : (d.units : ℚ) < 2 ^ 52 * 2 ^ e := by
      have hpow : 2 ^ (d.exp + 1) ≤ 2 ^ e := Nat.pow_le_pow_right (by decide) (by omega)
      have hunits := d.units_lt
      rw [Nat.pow_succ] at hpow
      have hnat : d.units < 2 ^ 52 * 2 ^ e := by omega
      exact_mod_cast hnat
    have hcloser : |x - k * 2 ^ e| < |x - d.units| := by
      calc |x - k * 2 ^ e| ≤ |x - (2 ^ 52 : Nat) * 2 ^ e| := (h.grid (2 ^ 52)).1
        _ = x - 2 ^ 52 * 2 ^ e := by
          push_cast
          exact abs_of_nonneg (by linarith)
        _ < x - d.units := by linarith
        _ ≤ |x - d.units| := le_abs_self _
    exact ⟨hcloser.le, fun _ heq => absurd heq hcloser.ne'⟩

/-- Half a step beyond the greatest magnitude with exponent `n + 1` a greater exponent is
needed. -/
theorem overflow_iff (h : RoundsTo x e k) (n : Nat) :
    (n + 1 < e ∨ e = n + 1 ∧ k = 2 ^ 53) ↔ (2 ^ 54 - 1) * 2 ^ n ≤ x := by
  have hpos : (0 : ℚ) < 2 ^ n := by positivity
  have hstep : (2 ^ (n + 1) : ℚ) = 2 ^ n * 2 := pow_succ 2 n
  constructor
  · rintro (hgt | ⟨rfl, rfl⟩)
    · have hcoarse := h.coarse.resolve_left (by omega)
      have hpow : (2 ^ (n + 2) : ℚ) ≤ 2 ^ e := pow_le_pow_right₀ (by norm_num) (by omega)
      rw [pow_add] at hpow
      linarith
    · have hlow := h.low
      rw [hstep] at hlow
      push_cast at hlow
      linarith
  · intro hlarge
    by_contra hsmall
    by_cases he : e = n + 1
    · subst he
      -- The last point of the grid is odd, so it is not half a step below `x`.
      have hne : k ≠ 2 ^ 53 := fun heq => hsmall (Or.inr ⟨rfl, heq⟩)
      have hnext : k + 1 ≤ 2 ^ 53 := Nat.lt_of_le_of_ne h.le_two_pow hne
      have hcast : (k + 1 : ℚ) ≤ 2 ^ 53 := by exact_mod_cast hnext
      have hscaled := mul_le_mul_of_nonneg_right hcast hpos.le
      have hhigh := h.high
      have heven := h.even
      rw [hstep] at hhigh heven
      have hlast : ((k + 1) * 2 ^ n : ℚ) = 2 ^ 53 * 2 ^ n := by linarith
      have hodd : k + 1 = 2 ^ 53 := by exact_mod_cast mul_right_cancel₀ hpos.ne' hlast
      have hparity : k % 2 = 0 := heven (Or.inr (by linarith))
      omega
    · have hfine := h.fine
      have hpow : (2 ^ e : ℚ) ≤ 2 ^ n := pow_le_pow_right₀ (by norm_num) (by omega)
      linarith

end RoundsTo

/-! ### Rounding to a magnitude -/

namespace Magnitude

variable {num den : Nat}

/-- A rounding is the point on the grid of its quotient, unless the exponent is too large. -/
theorem nearest?_cases {x : ℚ} {e k : Nat} (he : (num / den).log2 - 52 = e)
    (hk : divHalfEven num (den * 2 ^ e) = k) (h : RoundsTo x e k) :
    (∃ m, nearest? num den = some m ∧ m.units = k * 2 ^ e ∧ (k % 2 = 0 → m.mant % 2 = 0) ∧
        ¬(2045 < e ∨ e = 2045 ∧ k = 2 ^ 53)) ∨
      nearest? num den = none ∧ (2045 < e ∨ e = 2045 ∧ k = 2 ^ 53) := by
  have hle := h.le_two_pow
  have hlow := h.two_pow_le
  have heven : 2 ^ 52 % 2 = 0 := by decide
  simp only [nearest?, he, hk]
  by_cases hfull : k = 2 ^ 53
  · rw [if_pos hfull]
    by_cases hexp : e + 1 ≤ 2045
    · left
      have hunits : 2 ^ 52 * 2 ^ (e + 1) = k * 2 ^ e := by
        rw [hfull, @Nat.pow_succ 2 e]
        omega
      exact ⟨⟨2 ^ 52, e + 1, by omega⟩, dif_pos _, hunits, fun _ => heven, by omega⟩
    · right
      refine ⟨dif_neg ?_, by omega⟩
      omega
  · rw [if_neg hfull]
    by_cases hexp : e ≤ 2045
    · left
      exact ⟨⟨k, e, by omega⟩, dif_pos _, rfl, id, by omega⟩
    · right
      refine ⟨dif_neg ?_, by omega⟩
      omega

theorem abs_sub_value (x : ℚ) (d : Magnitude) :
    |x / unitsPerOne - d.value| = |x - d.units| / unitsPerOne := by
  have hpos : (0 : ℚ) < unitsPerOne := cast_unitsPerOne_pos
  rw [value, ← sub_div, abs_div, abs_of_pos hpos]

theorem isNearest_of_roundsTo {x : ℚ} {e k : Nat} (h : RoundsTo x e k) {m : Magnitude}
    (hunits : m.units = k * 2 ^ e) (heven : k % 2 = 0 → m.mant % 2 = 0) :
    m.IsNearest (x / unitsPerOne) := by
  have hpos : (0 : ℚ) < unitsPerOne := cast_unitsPerOne_pos
  have hcast : (m.units : ℚ) = k * 2 ^ e := by
    rw [hunits]
    push_cast
    rfl
  constructor
  · intro d
    rw [abs_sub_value, abs_sub_value, hcast]
    exact div_le_div_of_nonneg_right (h.magnitude d).1 hpos.le
  · intro d hne htie
    rw [abs_sub_value, abs_sub_value, hcast] at htie
    apply heven
    apply (h.magnitude d).2
    · intro heq
      exact hne (eq_of_units_eq (heq.trans hunits.symm))
    · exact (div_left_inj' hpos.ne').mp htie

theorem threshold_units (a n : Nat) :
    ((2 : ℚ) ^ (a + 54) - 2 ^ a) * (2 ^ n : Nat) = (2 ^ 54 - 1) * 2 ^ (a + n) := by
  push_cast
  rw [pow_add, pow_add]
  ring

theorem overflowThreshold_mul : overflowThreshold * unitsPerOne = (2 ^ 54 - 1) * 2 ^ 2044 :=
  threshold_units 970 1074

/-- A quotient of units is rounded to the nearest magnitude, unless it is too large. -/
theorem nearest?_spec {num den : Nat} (hden : 0 < den) {q : ℚ}
    (hq : q = num / den / unitsPerOne) :
    (∃ m, nearest? num den = some m ∧ q < overflowThreshold ∧ m.IsNearest q) ∨
      nearest? num den = none ∧ overflowThreshold ≤ q := by
  have hpos : (0 : ℚ) < unitsPerOne := cast_unitsPerOne_pos
  have h := @roundsTo_divHalfEven num den _ hden rfl
  have hthreshold := h.overflow_iff 2044
  rw [← overflowThreshold_mul, ← le_div_iff₀ hpos, ← hq] at hthreshold
  rcases nearest?_cases rfl rfl h with ⟨m, hm, hunits, heven, hexp⟩ | ⟨hnone, hexp⟩
  · left
    refine ⟨m, hm, ?_, ?_⟩
    · exact lt_of_not_ge fun hle => hexp (hthreshold.mpr hle)
    · rw [hq]
      exact isNearest_of_roundsTo h hunits heven
  · right
    exact ⟨hnone, hthreshold.mp hexp⟩

end Magnitude

/-! ### Rounding to a number -/

namespace Binary64

theorem isNearest_ofRatio (neg : Bool) {num den : Nat} (hden : 0 < den) {q : ℚ}
    (hq : q = num / den / unitsPerOne) : IsNearest neg q (ofRatio neg num den) := by
  rw [ofRatio]
  obtain ⟨m, hm, hlt, hnearest⟩ | ⟨hnone, hle⟩ := Magnitude.nearest?_spec hden hq
  · rw [hm]
    exact .finite hlt hnearest
  · rw [hnone]
    exact .inf hle

end Binary64

end Calculator
