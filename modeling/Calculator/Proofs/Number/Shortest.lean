/-
  Calculator/Proofs/Number/Shortest.lean
  ======================================
  **Number texts are exact or shortest.**  A number without a fraction is written
  in full.  Any other number is written as a decimal that reads back as it, with
  as few digits as possible and as close to it as any such decimal.

  The search looks only at the two neighbours of the number on each of its grids,
  and these stand for all decimals.  The decimals that read back form an interval
  around the number, however the interval ends and on whichever side it is wider.
  A decimal of the digits that a grid has room for is either on the grid, and then
  a neighbour lies between it and the number, or it is less than the least number
  of the expansion's length, which lies on the grid too and not above the number.
  In both cases the neighbour is as close and reads back.  So a grid on which no
  neighbour reads back has no room for any decimal that does.
-/
import Calculator.Proofs.Number.Amounts
import Calculator.Proofs.Number.Plain
import Mathlib.Algebra.Order.Group.Pointwise.Interval

namespace Calculator

/-! ### The interval of decimals that read back -/

namespace Decimal

theorem toMagnitude?_cases (d : Decimal) :
    (∃ m, d.toMagnitude? = some m ∧ d.value < overflowThreshold ∧ m.IsNearest d.value) ∨
      d.toMagnitude? = none ∧ overflowThreshold ≤ d.value := by
  rw [toMagnitude?]
  exact Magnitude.nearest?_spec (ten_pow_pos _) d.value_eq_quotient

theorem toMagnitude?_eq_some_iff {d : Decimal} {m : Magnitude} :
    d.toMagnitude? = some m ↔ d.value < overflowThreshold ∧ m.IsNearest d.value := by
  constructor
  · intro h
    obtain ⟨n, hn, hlt, hnearest⟩ | ⟨hnone, -⟩ := d.toMagnitude?_cases
    · obtain rfl : n = m := Option.some.inj (hn.symm.trans h)
      exact ⟨hlt, hnearest⟩
    · rw [hnone] at h
      cases h
  · rintro ⟨hlt, hnearest⟩
    obtain ⟨n, hn, -, hother⟩ | ⟨-, hle⟩ := d.toMagnitude?_cases
    · rw [hn, hother.unique hnearest]
    · exact absurd hlt hle.not_gt

variable {a b d : Decimal} {m : Magnitude}

theorem toMagnitude?_of_between (ha : a.toMagnitude? = some m) (hb : b.toMagnitude? = some m)
    (had : a.value ≤ d.value) (hdb : d.value ≤ b.value) : d.toMagnitude? = some m := by
  obtain ⟨-, ha⟩ := toMagnitude?_eq_some_iff.mp ha
  obtain ⟨hlt, hb⟩ := toMagnitude?_eq_some_iff.mp hb
  obtain ⟨n, hn, -, hd⟩ | ⟨-, hle⟩ := d.toMagnitude?_cases
  · have hlow : m.units ≤ n.units := ha.monotone hd had
    have hhigh : n.units ≤ m.units := hd.monotone hb hdb
    rw [hn, Magnitude.eq_of_units_eq (Nat.le_antisymm hhigh hlow)]
  · exact absurd (hdb.trans_lt hlt) hle.not_gt

theorem value_ten_pow (k : ℕ) (e : ℤ) : value ⟨10 ^ k, e⟩ = 10 ^ (k + e) := by
  rw [value, Nat.cast_pow, Nat.cast_ofNat, ← zpow_natCast, ← zpow_add₀ (by decide)]

theorem value_lt_ten_zpow {k : ℕ} (h : d.digits < 10 ^ k) : d.value < 10 ^ (k + d.exponent) := by
  have hdigits : (d.digits : ℚ) < 10 ^ k := by exact_mod_cast h
  rw [value, zpow_add₀ (by decide), zpow_natCast]
  exact mul_lt_mul_of_pos_right hdigits (zpow_pos (by decide) _)

end Decimal

namespace Magnitude

/-! ### Grids -/

/-- The last place of an expansion. -/
def lastPlace : ℚ := 10 ^ (-1074 : ℤ)

theorem lastPlace_pos : 0 < lastPlace := zpow_pos (by decide) _

theorem value_gridPoint (n dropped : Nat) :
    (gridPoint n dropped).value = n * 10 ^ dropped * lastPlace := by
  have hexponent : ((dropped : ℤ) - 1074) = dropped + (-1074) := sub_eq_add_neg _ _
  rewrite [gridPoint, Decimal.value, lastPlace, mul_assoc, ← zpow_natCast, ← zpow_add₀ (by decide),
    hexponent]
  rfl

theorem div_two_pow (u n : ℕ) : (u : ℚ) / (2 ^ n : ℕ) = (u * 5 ^ n : ℕ) * 10 ^ (-(n : ℤ)) := by
  have hten : (10 : ℚ) ^ n = 2 ^ n * 5 ^ n := by
    rw [← mul_pow]
    norm_num
  rw [zpow_neg, zpow_natCast, hten]
  push_cast
  field_simp

theorem value_eq_expansion (m : Magnitude) : m.value = m.expansion * lastPlace := by
  rewrite [value, expansion, unitsPerOne, lastPlace]
  exact div_two_pow m.units 1074

variable {m : Magnitude} {c d : Decimal} {n dropped : Nat}

theorem gridPoint_le_value_iff :
    (gridPoint n dropped).value ≤ m.value ↔ n * 10 ^ dropped ≤ m.expansion := by
  rw [value_gridPoint, value_eq_expansion, mul_le_mul_iff_of_pos_right lastPlace_pos]
  exact_mod_cast Iff.rfl

theorem value_le_gridPoint_iff :
    m.value ≤ (gridPoint n dropped).value ↔ m.expansion ≤ n * 10 ^ dropped := by
  rw [value_gridPoint, value_eq_expansion, mul_le_mul_iff_of_pos_right lastPlace_pos]
  exact_mod_cast Iff.rfl

theorem gridPoint_le_gridPoint {k : Nat} (h : n ≤ k) :
    (gridPoint n dropped).value ≤ (gridPoint k dropped).value := by
  have hcast : (n : ℚ) ≤ k := Nat.cast_le.mpr h
  have hpow : (0 : ℚ) ≤ 10 ^ dropped := by positivity
  rw [value_gridPoint, value_gridPoint]
  exact mul_le_mul_of_nonneg_right (mul_le_mul_of_nonneg_right hcast hpow) lastPlace_pos.le

theorem value_expansion (m : Magnitude) : (gridPoint m.expansion 0).value = m.value := by
  rw [value_gridPoint, value_eq_expansion, pow_zero, mul_one]

/-- Whatever lies between the magnitude and a decimal that reads back reads back. -/
theorem toMagnitude?_of_mem_uIcc (hc : c.toMagnitude? = some m)
    (h : d.value ∈ Set.uIcc c.value m.value) : d.toMagnitude? = some m := by
  have hexact := m.toMagnitude?_expansion
  have hvalue := m.value_expansion
  rcases Set.mem_uIcc.mp h with ⟨hlow, hhigh⟩ | ⟨hlow, hhigh⟩
  · exact Decimal.toMagnitude?_of_between hc hexact hlow (hhigh.trans_eq hvalue.symm)
  · exact Decimal.toMagnitude?_of_between hexact hc (hvalue.trans_le hlow) hhigh

/-! ### Neighbours stand for all decimals -/

/-- The last point of a grid that is not above the magnitude, or the first one above it. -/
def IsNeighbour (m : Magnitude) (dropped n : Nat) : Prop :=
  n = m.expansion / 10 ^ dropped ∨ n = m.expansion / 10 ^ dropped + 1

/-- From each point of a grid to the magnitude there is a neighbour on the way. -/
theorem exists_neighbour (m : Magnitude) (n dropped : Nat) :
    ∃ k, m.IsNeighbour dropped k ∧
      (gridPoint k dropped).value ∈ Set.uIcc (gridPoint n dropped).value m.value := by
  have hstep : 0 < 10 ^ dropped := Decimal.ten_pow_pos dropped
  by_cases h : n ≤ m.expansion / 10 ^ dropped
  · refine ⟨_, Or.inl rfl, Set.mem_uIcc_of_le (gridPoint_le_gridPoint h) ?_⟩
    exact gridPoint_le_value_iff.mpr (Nat.div_mul_le_self m.expansion _)
  · refine ⟨_, Or.inr rfl, Set.mem_uIcc_of_ge ?_ (gridPoint_le_gridPoint (by omega))⟩
    exact value_le_gridPoint_iff.mpr (Nat.lt_mul_of_div_lt (Nat.lt_succ_self _) hstep).le

theorem expansion_pos (h : m.units ≠ 0) : 0 < m.expansion := by
  have hpos (n : Nat) : 0 < m.units * 5 ^ n :=
    Nat.mul_pos (Nat.pos_of_ne_zero h) (Nat.pow_pos (by decide))
  exact hpos 1074

theorem ten_pow_le_expansion (h : m.units ≠ 0) : 10 ^ (m.expansionLength - 1) ≤ m.expansion := by
  by_cases hone : m.expansionLength - 1 = 0
  · rw [hone]
    exact expansion_pos h
  · apply Nat.le_of_not_lt
    intro hlt
    have hlength := (Nat.length_toDigits_le_iff (by decide) (Nat.pos_of_ne_zero hone)).mpr hlt
    rw [← expansionLength] at hlength
    omega

theorem expansion_lt (m : Magnitude) : m.expansion < 10 ^ m.expansionLength :=
  (Nat.length_toDigits_le_iff (by decide) Nat.length_toDigits_pos).mp (Nat.le_refl _)

/-- From each decimal of the digits that a grid has room for there is a point of the grid on the
way to the magnitude. -/
theorem exists_gridPoint (hm : m.units ≠ 0) (hdropped : dropped < m.expansionLength)
    (hc : c.digits < 10 ^ (m.expansionLength - dropped)) :
    ∃ n, (gridPoint n dropped).value ∈ Set.uIcc c.value m.value := by
  by_cases hcoarse : (dropped : Int) - 1074 ≤ c.exponent
  · -- The decimal is itself a point of the grid.
    obtain ⟨k, hk⟩ := Int.le.dest hcoarse
    refine ⟨c.digits * 10 ^ k, ?_⟩
    rewrite [gridPoint, Decimal.value_shift, hk]
    exact Set.left_mem_uIcc
  · refine ⟨10 ^ (m.expansionLength - 1 - dropped), Set.mem_uIcc_of_le ?_ ?_⟩
    · calc c.value ≤ 10 ^ ((m.expansionLength - dropped : ℕ) + c.exponent) :=
            (Decimal.value_lt_ten_zpow hc).le
        _ ≤ 10 ^ ((m.expansionLength - 1 - dropped : ℕ) + ((dropped : ℤ) - 1074)) :=
            zpow_le_zpow_right₀ (by decide) (by omega)
        _ = (gridPoint (10 ^ (m.expansionLength - 1 - dropped)) dropped).value :=
            (Decimal.value_ten_pow _ _).symm
    · apply gridPoint_le_value_iff.mpr
      have hlength : m.expansionLength - 1 - dropped + dropped = m.expansionLength - 1 := by omega
      rw [← Nat.pow_add, hlength]
      exact ten_pow_le_expansion hm

/-- A neighbour is as close to the magnitude as a decimal of the digits that the grid has room
for, and reads back if the decimal does. -/
theorem exists_neighbour_of_reads (hm : m.units ≠ 0) (hdropped : dropped < m.expansionLength)
    (hc : c.toMagnitude? = some m) (hdigits : c.digits < 10 ^ (m.expansionLength - dropped)) :
    ∃ k, m.IsNeighbour dropped k ∧ (gridPoint k dropped).toMagnitude? = some m ∧
      |m.value - (gridPoint k dropped).value| ≤ |m.value - c.value| := by
  obtain ⟨n, hn⟩ := exists_gridPoint hm hdropped hdigits
  obtain ⟨k, hneighbour, hk⟩ := m.exists_neighbour n dropped
  have hmem := Set.uIcc_subset_uIcc_right hn hk
  exact ⟨k, hneighbour, toMagnitude?_of_mem_uIcc hc hmem, Set.abs_sub_right_of_mem_uIcc hmem⟩

/-! ### The neighbour that is taken -/

theorem cast_expansion (m : Magnitude) (dropped : Nat) :
    (m.expansion : ℚ) =
      (m.expansion / 10 ^ dropped : ℕ) * 10 ^ dropped + (m.expansion % 10 ^ dropped : ℕ) := by
  exact_mod_cast (Nat.div_add_mod' m.expansion (10 ^ dropped)).symm

theorem abs_sub_below (m : Magnitude) (dropped : Nat) :
    |m.value - (gridPoint (m.expansion / 10 ^ dropped) dropped).value| =
      (m.expansion % 10 ^ dropped : ℕ) * lastPlace := by
  have hexcess : (0 : ℚ) ≤ (m.expansion % 10 ^ dropped : ℕ) := Nat.cast_nonneg _
  rw [value_gridPoint, value_eq_expansion, m.cast_expansion dropped, add_mul, add_sub_cancel_left]
  exact abs_of_nonneg (mul_nonneg hexcess lastPlace_pos.le)

theorem abs_sub_above (m : Magnitude) (dropped : Nat) :
    |m.value - (gridPoint (m.expansion / 10 ^ dropped + 1) dropped).value| =
      (10 ^ dropped - m.expansion % 10 ^ dropped : ℕ) * lastPlace := by
  have hmod : m.expansion % 10 ^ dropped ≤ 10 ^ dropped :=
    (Nat.mod_lt _ (Decimal.ten_pow_pos dropped)).le
  have hrest : (0 : ℚ) ≤ (10 ^ dropped - m.expansion % 10 ^ dropped : ℕ) := Nat.cast_nonneg _
  have hdifference : m.value - (gridPoint (m.expansion / 10 ^ dropped + 1) dropped).value =
      -((10 ^ dropped - m.expansion % 10 ^ dropped : ℕ) * lastPlace) := by
    rw [value_gridPoint, value_eq_expansion, m.cast_expansion dropped, Nat.cast_sub hmod]
    push_cast
    ring
  rw [hdifference, abs_neg]
  exact abs_of_nonneg (mul_nonneg hrest lastPlace_pos.le)

/-- A grid gives the nearer one of its neighbours that read back. -/
theorem onGrid?_cases (m : Magnitude) (dropped : Nat) :
    (∃ k, m.IsNeighbour dropped k ∧ m.onGrid? dropped = some (gridPoint k dropped) ∧
        ∀ n, m.IsNeighbour dropped n → (gridPoint n dropped).toMagnitude? = some m →
          |m.value - (gridPoint k dropped).value| ≤ |m.value - (gridPoint n dropped).value|) ∨
      m.onGrid? dropped = none ∧
        ∀ n, m.IsNeighbour dropped n → (gridPoint n dropped).toMagnitude? ≠ some m := by
  have hmod : m.expansion % 10 ^ dropped < 10 ^ dropped :=
    Nat.mod_lt _ (Decimal.ten_pow_pos dropped)
  have hscaled {a b : Nat} (hab : a ≤ b) : (a : ℚ) * lastPlace ≤ b * lastPlace :=
    mul_le_mul_of_nonneg_right (Nat.cast_le.mpr hab) lastPlace_pos.le
  rw [onGrid?]
  obtain ⟨htaken, -, hnearer⟩ | ⟨htaken, -, hnearer⟩ | ⟨hnone, hbelow, habove⟩ :=
    readsBack?_cases m _ _ _
  · refine Or.inl ⟨_, Or.inl rfl, htaken, ?_⟩
    rintro n (rfl | rfl) hreads
    · exact le_rfl
    · have hhalf := of_decide_eq_true (hnearer hreads)
      rw [abs_sub_below, abs_sub_above]
      exact hscaled (by omega)
  · refine Or.inl ⟨_, Or.inr rfl, htaken, ?_⟩
    rintro n (rfl | rfl) hreads
    · have hhalf := of_decide_eq_false (hnearer hreads)
      rw [abs_sub_below, abs_sub_above]
      exact hscaled (by omega)
    · exact le_rfl
  · refine Or.inr ⟨hnone, ?_⟩
    rintro n (rfl | rfl)
    · exact hbelow
    · exact habove

theorem IsNeighbour.le (h : m.IsNeighbour dropped n) (hdropped : dropped ≤ m.expansionLength) :
    n ≤ 10 ^ (m.expansionLength - dropped) := by
  have hlow : m.expansion / 10 ^ dropped < 10 ^ (m.expansionLength - dropped) := by
    apply Nat.div_lt_of_lt_mul
    rw [← Nat.pow_add, Nat.add_sub_cancel' hdropped]
    exact m.expansion_lt
  rcases h with rfl | rfl
  · exact hlow.le
  · exact hlow

/-! ### The first grid with a decimal that reads back -/

theorem onGrid?_zero (m : Magnitude) : m.onGrid? 0 = some (gridPoint m.expansion 0) := by
  simp only [onGrid?, readsBack?, Nat.pow_zero, Nat.div_one, Nat.mod_one, toMagnitude?_expansion,
    if_true, Nat.mul_zero, Nat.zero_lt_one, true_or, decide_true, ite_self]

theorem firstOnGrid_spec (m : Magnitude) (dropped : Nat) :
    ∃ first ≤ dropped, m.onGrid? first = some (m.firstOnGrid dropped) ∧
      ∀ coarser, first < coarser → coarser ≤ dropped → m.onGrid? coarser = none := by
  induction dropped with
  | zero =>
    refine ⟨0, Nat.le_refl 0, m.onGrid?_zero, ?_⟩
    intro coarser hlt hle
    omega
  | succ dropped ih =>
    rw [firstOnGrid]
    cases h : m.onGrid? (dropped + 1) with
    | some d =>
      refine ⟨dropped + 1, Nat.le_refl _, h, ?_⟩
      intro coarser hlt hle
      omega
    | none =>
      obtain ⟨first, hfirst, htaken, hnone⟩ := ih
      refine ⟨first, Nat.le_succ_of_le hfirst, htaken, ?_⟩
      intro coarser hlt hle
      rcases Nat.lt_or_eq_of_le hle with hless | rfl
      · exact hnone coarser hlt (Nat.le_of_lt_succ hless)
      · exact h

/-- A grid on which nothing is found has no room for a decimal that reads back. -/
theorem le_digits_of_onGrid?_eq_none (hm : m.units ≠ 0) (hdropped : dropped < m.expansionLength)
    (hnone : m.onGrid? dropped = none) (hc : c.toMagnitude? = some m) :
    10 ^ (m.expansionLength - dropped) ≤ c.digits := by
  apply Nat.le_of_not_lt
  intro hdigits
  obtain ⟨n, hn, hreads, -⟩ := exists_neighbour_of_reads hm hdropped hc hdigits
  obtain ⟨k, -, htaken, -⟩ | ⟨-, hrefused⟩ := m.onGrid?_cases dropped
  · rw [hnone] at htaken
    cases htaken
  · exact hrefused n hn hreads

/-- The shortest decimal has the fewest digits of all that read back, and is as close as any of
as many digits. -/
theorem shortest_spec (hm : m.units ≠ 0) :
    ∃ count, m.shortest.digits < 10 ^ count ∧ ∀ c : Decimal, c.toMagnitude? = some m →
      (∀ k, c.digits < 10 ^ k → count ≤ k) ∧
      (c.digits < 10 ^ count → |m.value - m.shortest.value| ≤ |m.value - c.value|) := by
  have hlength : 0 < m.expansionLength := Nat.length_toDigits_pos
  obtain ⟨first, hfirst, htaken, hnone⟩ := m.firstOnGrid_spec (m.expansionLength - 1)
  have hdropped : first < m.expansionLength := by omega
  have hne := digits_firstOnGrid_ne_zero hm (m.expansionLength - 1)
  obtain ⟨n, hn, hpoint, hclosest⟩ | ⟨hempty, -⟩ := m.onGrid?_cases first
  · obtain hfound : m.firstOnGrid (m.expansionLength - 1) = gridPoint n first :=
      Option.some.inj (htaken.symm.trans hpoint)
    rw [hfound] at hne
    rw [shortest, hfound]
    refine ⟨m.expansionLength - first, ?_, ?_⟩
    · exact Decimal.digits_trim_lt hne (hn.le hdropped.le) (by omega)
    · intro c hc
      constructor
      · intro k hk
        apply Nat.le_of_not_lt
        intro hlt
        have hpos : k ≠ 0 := by
          rintro rfl
          exact Decimal.digits_ne_zero hc hm (Nat.lt_one_iff.mp hk)
        -- As few digits have room on a coarser grid.
        have hcoarser := hnone (m.expansionLength - k) (by omega) (by omega)
        have hmany := le_digits_of_onGrid?_eq_none hm (by omega) hcoarser hc
        have hroom : m.expansionLength - (m.expansionLength - k) = k := by omega
        rw [hroom] at hmany
        omega
      · intro hdigits
        obtain ⟨k, hk, hreads, hcloser⟩ := exists_neighbour_of_reads hm hdropped hc hdigits
        rw [Decimal.value_trim]
        exact (hclosest k hk hreads).trans hcloser
  · rw [htaken] at hempty
    cases hempty

end Magnitude

/-! ### Numbers -/

/-- A decimal of at most `k` significant digits. -/
def HasDigits (k : ℕ) (q : ℚ) : Prop := ∃ (n : ℕ) (e : ℤ), n < 10 ^ k ∧ |q| = n * 10 ^ e

/-- The number nearest to `q`, ties to even, is `x`. -/
def ReadsAs (q : ℚ) (x : Binary64) : Prop := Binary64.IsNearest (decide (q < 0)) |q| x

/-- A decimal of `k` digits that reads back as `x`, such that none of fewer digits does and none
of as many digits that does is closer to `x`. -/
structure IsShortest (x : Binary64) (k : ℕ) (q : ℚ) : Prop where
  digits : HasDigits k q
  readsBack : ReadsAs q x
  fewest : ∀ (r : ℚ) (j : ℕ), HasDigits j r → ReadsAs r x → k ≤ j
  closest : ∀ r : ℚ, HasDigits k r → ReadsAs r x → |x.value - q| ≤ |x.value - r|

section Readings

variable {neg : Bool} {q : ℚ} {m : Magnitude}

theorem readsAs_finite_iff :
    ReadsAs q (.finite neg m) ↔
      decide (q < 0) = neg ∧ |q| < overflowThreshold ∧ m.IsNearest |q| := by
  rw [ReadsAs]
  constructor
  · intro h
    generalize hsign : decide (q < 0) = sign at h
    cases h with
    | finite hlt hm => exact ⟨rfl, hlt, hm⟩
  · rintro ⟨rfl, hlt, hm⟩
    exact .finite hlt hm

theorem exists_decimal {k : ℕ} (hdigits : HasDigits k q) (hreads : ReadsAs q (.finite neg m)) :
    ∃ d : Decimal, d.digits < 10 ^ k ∧ d.toMagnitude? = some m ∧ q = withSign neg d.value := by
  obtain ⟨n, e, hn, hq⟩ := hdigits
  obtain ⟨rfl, hlt, hm⟩ := readsAs_finite_iff.mp hreads
  have hvalue : |q| = Decimal.value ⟨n, e⟩ := hq
  rw [hvalue] at hlt hm
  refine ⟨⟨n, e⟩, hn, Decimal.toMagnitude?_eq_some_iff.mpr ⟨hlt, hm⟩, ?_⟩
  rw [← hvalue, withSign_abs]

end Readings

theorem isShortest_shortest (neg : Bool) {m : Magnitude} (hm : m.units ≠ 0) :
    ∃ k, IsShortest (.finite neg m) k (withSign neg m.shortest.value) := by
  obtain ⟨count, hcount, hleast⟩ := Magnitude.shortest_spec hm
  have hreads := m.toMagnitude?_shortest
  obtain ⟨hlt, hnearest⟩ := Decimal.toMagnitude?_eq_some_iff.mp hreads
  have hdigits : (0 : ℚ) < m.shortest.digits :=
    Nat.cast_pos.mpr (Nat.pos_of_ne_zero (Decimal.digits_ne_zero hreads hm))
  have hpos : 0 < m.shortest.value := mul_pos hdigits (zpow_pos (by decide) _)
  have habs : |withSign neg m.shortest.value| = m.shortest.value := abs_withSign hpos.le
  refine ⟨count, ?_, ?_, ?_, ?_⟩
  · exact ⟨m.shortest.digits, m.shortest.exponent, hcount, habs⟩
  · rw [readsAs_finite_iff, habs]
    exact ⟨decide_withSign_neg hpos, hlt, hnearest⟩
  · intro r j hr hrx
    obtain ⟨d, hd, hdx, rfl⟩ := exists_decimal hr hrx
    exact (hleast d hdx).1 j hd
  · intro r hr hrx
    obtain ⟨d, hd, hdx, rfl⟩ := exists_decimal hr hrx
    rw [Binary64.value_finite, abs_withSign_sub, abs_withSign_sub]
    exact (hleast d hdx).2 hd

/-- **Number texts are exact or shortest.**  The text of a finite number denotes one rational: the
number itself if it is integral, and otherwise the shortest decimal that reads back as the number,
which is also what its debug text denotes. -/
theorem numberText_shortest (neg : Bool) (m : Magnitude) :
    ∃ q : ℚ, (∀ r, IsAmount (Binary64.finite neg m).numberText.toList r ↔ r = q) ∧
      ((Binary64.finite neg m).IsIntegral → q = (Binary64.finite neg m).value) ∧
      (¬(Binary64.finite neg m).IsIntegral →
        (∃ k, IsShortest (.finite neg m) k q) ∧
        ∀ r, IsAmount (Binary64.finite neg m).debugText.toList r ↔ r = q) := by
  by_cases hwhole : m.isWhole = true
  · have hintegral : (Binary64.finite neg m).IsIntegral := Binary64.isIntegral_finite_iff.mpr hwhole
    have htext := isAmount_signed (Magnitude.denotes_numberText_of_isWhole hwhole).isScaled neg
    refine ⟨withSign neg m.value, htext.iff_eq, ?_, ?_⟩
    · intro _
      rw [Binary64.value_finite]
    · intro hfraction
      exact absurd hintegral hfraction
  · have hne := Magnitude.units_ne_zero_of_not_isWhole hwhole
    have htext := isAmount_signed (Magnitude.denotes_numberText_of_not_isWhole hwhole).isScaled neg
    have hdebug := isAmount_signed (Magnitude.isScaled_debugText hne) neg
    refine ⟨withSign neg m.shortest.value, htext.iff_eq, ?_, ?_⟩
    · intro hintegral
      exact absurd (Binary64.isIntegral_finite_iff.mp hintegral) hwhole
    · intro _
      exact ⟨isShortest_shortest neg hne, hdebug.iff_eq⟩

/-- At a power of two the number below is at half the distance of the one above, and the closest
decimal of sixteen digits reads as the number below. -/
theorem numberText_powerOfTwo :
    (Binary64.finite false ⟨2 ^ 52, 978, by decide⟩).numberText =
        "0.00000000000005684341886080802" ∧
      (Binary64.finite false ⟨2 ^ 52, 978, by decide⟩).debugText = "5.684341886080802e-14" ∧
      ¬(Binary64.finite false ⟨2 ^ 52, 978, by decide⟩).IsIntegral ∧
      ∃ q, IsAmount "0.00000000000005684341886080802".toList q ∧
        IsAmount "5.684341886080802e-14".toList q ∧
        ∃ k, IsShortest (.finite false ⟨2 ^ 52, 978, by decide⟩) k q := by
  have htext : (Binary64.finite false ⟨2 ^ 52, 978, by decide⟩).numberText =
      "0.00000000000005684341886080802" := by decide +kernel
  have hdebug : (Binary64.finite false ⟨2 ^ 52, 978, by decide⟩).debugText =
      "5.684341886080802e-14" := by decide +kernel
  have hfraction : ¬(Binary64.finite false ⟨2 ^ 52, 978, by decide⟩).IsIntegral := by
    rw [Binary64.isIntegral_finite_iff]
    decide +kernel
  obtain ⟨q, hq, -, hshortest⟩ := numberText_shortest false ⟨2 ^ 52, 978, by decide⟩
  obtain ⟨hk, hsame⟩ := hshortest hfraction
  rw [htext] at hq
  rw [hdebug] at hsame
  exact ⟨htext, hdebug, hfraction, q, (hq q).mpr rfl, (hsame q).mpr rfl, hk⟩

end Calculator
