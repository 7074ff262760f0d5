/-
  Calculator/Proofs/Number/ReadBack.lean
  ======================================
  **Number texts read back.**  The rounding of a quotient depends on nothing but
  its value, and a magnitude is the rounding of itself.  So a decimal can move
  zeros between its digits and its exponent, and the point between its digits,
  and still be read as the same magnitude.  The search for the shortest decimal
  only ever takes a decimal that reads back, and its last resort, the whole
  expansion, denotes the magnitude exactly.  Therefore the digits that are
  written for a magnitude denote a decimal that is read as the magnitude.
-/
import Calculator.Number.Text

namespace Calculator

/-! ### Rounding depends on the value of a quotient -/

theorem divHalfEven_mul_left {k : Nat} (hk : 0 < k) (num den : Nat) :
    divHalfEven (k * num) (k * den) = divHalfEven num den := by
  have hq : k * num / (k * den) = num / den := Nat.mul_div_mul_left num den hk
  have hr : k * num % (k * den) = k * (num % den) := Nat.mul_mod_mul_left k num den
  have hmore : 2 * (k * (num % den)) > k * den ↔ 2 * (num % den) > den := by
    rw [Nat.mul_left_comm]
    exact Nat.mul_lt_mul_left hk
  have htie : 2 * (k * (num % den)) = k * den ↔ 2 * (num % den) = den := by
    rw [Nat.mul_left_comm]
    exact Nat.mul_right_inj (Nat.ne_of_gt hk)
  simp only [divHalfEven, hq, hr, hmore, htie]

theorem divHalfEven_mul_self {d : Nat} (hd : 0 < d) (n : Nat) : divHalfEven (n * d) d = n := by
  simp [divHalfEven, Nat.mul_div_cancel n hd]
  omega

namespace Magnitude

theorem nearest?_mul_left {k : Nat} (hk : 0 < k) (num den : Nat) :
    nearest? (k * num) (k * den) = nearest? num den := by
  have hq : k * num / (k * den) = num / den := Nat.mul_div_mul_left num den hk
  simp only [nearest?, hq, Nat.mul_assoc, divHalfEven_mul_left hk]

/-- Equal quotients are rounded to one magnitude. -/
theorem nearest?_congr {a b c d : Nat} (hb : 0 < b) (hd : 0 < d) (h : a * d = c * b) :
    nearest? a b = nearest? c d := by
  rw [← nearest?_mul_left hd a b, ← nearest?_mul_left hb c d, Nat.mul_comm d a, h,
    Nat.mul_comm c b, Nat.mul_comm d b]

/-- The exponent of a canonical magnitude is the excess of its length over 53 bits. -/
theorem log2_units (m : Magnitude) : m.units.log2 - 52 = m.exp := by
  obtain ⟨mant, exp, hmant, hexp, hnormal⟩ := m
  simp only [units]
  rcases hnormal with rfl | hnormal
  · -- a subnormal magnitude is shorter than 53 bits
    by_cases hzero : mant = 0
    · simp [hzero]
    · have hlog : mant.log2 < 53 := (Nat.log2_lt hzero).mpr hmant
      simp only [Nat.pow_zero, Nat.mul_one]
      omega
  · have hpos : mant * 2 ^ exp ≠ 0 := by
      have : 0 < mant * 2 ^ exp := Nat.mul_pos (by omega) (Nat.two_pow_pos exp)
      omega
    have hlow : 52 + exp ≤ (mant * 2 ^ exp).log2 := by
      rw [Nat.le_log2 hpos, Nat.pow_add]
      exact Nat.mul_le_mul_right _ hnormal
    have hhigh : (mant * 2 ^ exp).log2 < 53 + exp := by
      rw [Nat.log2_lt hpos, Nat.pow_add]
      exact Nat.mul_lt_mul_of_pos_right hmant (Nat.two_pow_pos exp)
    omega

theorem nearest?_units (m : Magnitude) : nearest? m.units 1 = some m := by
  have hmant : divHalfEven m.units (1 * 2 ^ m.exp) = m.mant := by
    rw [Nat.one_mul]
    exact divHalfEven_mul_self (Nat.two_pow_pos m.exp) m.mant
  have hne : m.mant ≠ 2 ^ 53 := Nat.ne_of_lt m.canonical.1
  simp only [nearest?, Nat.div_one, log2_units, hmant, if_neg hne]
  exact dif_pos m.canonical

/-- A quotient that is a magnitude is rounded to it. -/
theorem nearest?_of_eq {m : Magnitude} {num den : Nat} (hden : 0 < den)
    (h : num = m.units * den) : nearest? num den = some m := by
  rw [← nearest?_units m]
  exact nearest?_congr hden Nat.one_pos (by rw [h, Nat.mul_one])

end Magnitude

/-! ### Decimals of one value -/

namespace Decimal

theorem ten_pow_pos (n : Nat) : 0 < 10 ^ n := Nat.pow_pos (by decide)

theorem mul_ten_pow_congr (n u : Nat) {a b c d k : Nat} (h : k + a + d = c + b) :
    n * 10 ^ k * 10 ^ a * u * 10 ^ d = n * 10 ^ c * u * 10 ^ b := by
  have hpow : 10 ^ k * 10 ^ a * 10 ^ d = 10 ^ c * 10 ^ b := by
    rw [← Nat.pow_add, ← Nat.pow_add, h, Nat.pow_add]
  calc n * 10 ^ k * 10 ^ a * u * 10 ^ d
      = n * u * (10 ^ k * 10 ^ a * 10 ^ d) := by ac_rfl
    _ = n * u * (10 ^ c * 10 ^ b) := by rw [hpow]
    _ = n * 10 ^ c * u * 10 ^ b := by ac_rfl

/-- Zeros at the end of the digits and a larger exponent are the same. -/
theorem toMagnitude?_shift (n k : Nat) (e : Int) :
    toMagnitude? ⟨n * 10 ^ k, e⟩ = toMagnitude? ⟨n, e + k⟩ := by
  have hsum : k + e.toNat + (-(e + k)).toNat = (e + k).toNat + (-e).toNat := by omega
  exact Magnitude.nearest?_congr (ten_pow_pos _) (ten_pow_pos _)
    (mul_ten_pow_congr n unitsPerOne hsum)

/-- Trimming takes a power of ten from the digits and adds its exponent. -/
theorem exists_shift_trimZeros (count : Nat) (d : Decimal) :
    ∃ k : Nat, d.digits = (trimZeros count d).digits * 10 ^ k ∧
      (trimZeros count d).exponent = d.exponent + k := by
  induction count generalizing d with
  | zero => exact ⟨0, (Nat.mul_one d.digits).symm, (Int.add_zero d.exponent).symm⟩
  | succ count ih =>
    rw [trimZeros]
    split
    · next hzero =>
      obtain ⟨k, hdigits, hexponent⟩ := ih ⟨d.digits / 10, d.exponent + 1⟩
      dsimp only at hdigits hexponent
      refine ⟨k + 1, ?_, ?_⟩
      · rw [Nat.pow_succ, ← Nat.mul_assoc, ← hdigits]
        omega
      · omega
    · exact ⟨0, (Nat.mul_one d.digits).symm, (Int.add_zero d.exponent).symm⟩

theorem exists_shift_trim (d : Decimal) :
    ∃ k : Nat, d.digits = d.trim.digits * 10 ^ k ∧ d.trim.exponent = d.exponent + k :=
  exists_shift_trimZeros _ d

theorem toMagnitude?_trim (d : Decimal) : d.trim.toMagnitude? = d.toMagnitude? := by
  obtain ⟨k, hdigits, hexponent⟩ := d.exists_shift_trim
  have hshift := toMagnitude?_shift d.trim.digits k d.exponent
  rw [← hdigits, ← hexponent] at hshift
  exact hshift.symm

end Decimal

/-! ### The shortest decimal reads back -/

namespace Magnitude

/-- What is taken reads back, and is the nearer one if both do. -/
theorem readsBack?_cases (m : Magnitude) (below above : Decimal) (nearer : Bool) :
    (m.readsBack? below above nearer = some below ∧ below.toMagnitude? = some m ∧
        (above.toMagnitude? = some m → nearer = true)) ∨
      (m.readsBack? below above nearer = some above ∧ above.toMagnitude? = some m ∧
        (below.toMagnitude? = some m → nearer = false)) ∨
      m.readsBack? below above nearer = none ∧ below.toMagnitude? ≠ some m ∧
        above.toMagnitude? ≠ some m := by
  rw [readsBack?]
  by_cases hbelow : below.toMagnitude? = some m
  · by_cases habove : above.toMagnitude? = some m
    · cases nearer with
      | true => simp [hbelow, habove]
      | false => simp [hbelow, habove]
    · simp [hbelow, habove]
  · by_cases habove : above.toMagnitude? = some m
    · simp [hbelow, habove]
    · simp [hbelow, habove]

theorem toMagnitude?_of_onGrid? {m : Magnitude} {dropped : Nat} {d : Decimal}
    (h : m.onGrid? dropped = some d) : d.toMagnitude? = some m := by
  rw [onGrid?] at h
  obtain ⟨htaken, hreads, -⟩ | ⟨htaken, hreads, -⟩ | ⟨hnone, -⟩ := readsBack?_cases m _ _ _
  · exact Option.some.inj (htaken.symm.trans h) ▸ hreads
  · exact Option.some.inj (htaken.symm.trans h) ▸ hreads
  · rw [hnone] at h
    cases h

/-- Counting units of a power of two in units of a power of ten is exact. -/
theorem units_mul_ten_pow (units n : Nat) :
    units * 5 ^ n * 10 ^ 0 * 2 ^ n = units * 10 ^ n := by
  rw [Nat.pow_zero, Nat.mul_one, Nat.mul_assoc, ← Nat.mul_pow]

theorem toMagnitude?_expansion (m : Magnitude) :
    (gridPoint m.expansion 0).toMagnitude? = some m := by
  have hdigits : (gridPoint m.expansion 0).digits = m.expansion := rfl
  have hexponent : (gridPoint m.expansion 0).exponent = -1074 := rfl
  have hup : (-1074 : Int).toNat = 0 := by decide
  have hdown : (-(-1074) : Int).toNat = 1074 := by decide
  refine nearest?_of_eq (Decimal.ten_pow_pos _) ?_
  rewrite [hexponent, hdigits, hup, hdown, expansion, unitsPerOne]
  exact units_mul_ten_pow m.units 1074

theorem toMagnitude?_firstOnGrid (m : Magnitude) (dropped : Nat) :
    (m.firstOnGrid dropped).toMagnitude? = some m := by
  induction dropped with
  | zero => exact toMagnitude?_expansion m
  | succ dropped ih =>
    rw [firstOnGrid]
    cases h : m.onGrid? (dropped + 1) with
    | none => exact ih
    | some d => exact toMagnitude?_of_onGrid? h

/-- The shortest decimal of a magnitude is read as the magnitude. -/
theorem toMagnitude?_shortest (m : Magnitude) : m.shortest.toMagnitude? = some m := by
  have htrim := Decimal.toMagnitude?_trim (m.firstOnGrid (m.expansionLength - 1))
  exact htrim.trans (toMagnitude?_firstOnGrid m _)

end Magnitude

/-! ### Digits with a point -/

/-- The digits of a decimal, and a point before the fraction if it has one. -/
def pointed (whole fraction : List Char) : List Char :=
  if fraction = [] then whole else whole ++ '.' :: fraction

/-- A text of digits that the scanner takes in whole: some digits, and perhaps a point with
more of them, for one decimal. -/
def Writes (text : List Char) (value : Option Magnitude) : Prop :=
  ∃ whole fraction, text = pointed whole fraction ∧ whole ≠ [] ∧
    (∀ c ∈ whole, c.isDigit = true) ∧ (∀ c ∈ fraction, c.isDigit = true) ∧
    (Decimal.ofDigits whole fraction).toMagnitude? = value

/-- Such a text starts with a digit. -/
theorem Writes.starts {text : List Char} {value : Option Magnitude} (h : Writes text value) :
    ∃ c rest, text = c :: rest ∧ c.isDigit = true := by
  obtain ⟨whole, fraction, rfl, hne, hwhole, -, -⟩ := h
  cases whole with
  | nil => exact absurd rfl hne
  | cons c whole =>
    have hc : c.isDigit = true := hwhole c (by simp)
    by_cases hnil : fraction = []
    · exact ⟨c, whole, by simp [pointed, hnil], hc⟩
    · exact ⟨c, whole ++ '.' :: fraction, by simp [pointed, hnil], hc⟩

/-- A text of this kind, and the decimal that its digits are read as. -/
def LaysOut (text : List Char) (d : Decimal) : Prop :=
  ∃ whole fraction, text = pointed whole fraction ∧ whole ≠ [] ∧
    (∀ c ∈ whole, c.isDigit = true) ∧ (∀ c ∈ fraction, c.isDigit = true) ∧
    Decimal.ofDigits whole fraction = d

theorem LaysOut.writes {text : List Char} {d : Decimal} (h : LaysOut text d) :
    Writes text d.toMagnitude? := by
  obtain ⟨whole, fraction, htext, hne, hwhole, hfraction, rfl⟩ := h
  exact ⟨whole, fraction, htext, hne, hwhole, hfraction, rfl⟩

/-- A numeral is laid out without a point. -/
theorem laysOut_toDigits (n : Nat) : LaysOut (Nat.toDigits 10 n) ⟨n, 0⟩ := by
  refine ⟨Nat.toDigits 10 n, [], rfl, Nat.toDigits_ne_nil, ?_, ?_, ?_⟩
  · intro c hc
    exact Nat.isDigit_of_mem_toDigits (by decide) (by decide) hc
  · intro c hc
    exact absurd hc List.not_mem_nil
  · rw [Decimal.ofDigits, List.append_nil, Nat.ofDigitChars_ten_toDigits]
    rfl

namespace Decimal

theorem isDigit_of_mem_digitChars {d : Decimal} {c : Char} (h : c ∈ d.digitChars) :
    c.isDigit = true :=
  Nat.isDigit_of_mem_toDigits (by decide) (by decide) h

theorem ofDigitChars_digitChars (d : Decimal) : Nat.ofDigitChars 10 d.digitChars 0 = d.digits :=
  Nat.ofDigitChars_ten_toDigits

theorem isDigit_of_mem_zeros {count : Nat} {c : Char} (h : c ∈ List.replicate count '0') :
    c.isDigit = true := by
  rw [List.eq_of_mem_replicate h]
  decide

/-- The same decimal with zeros in the place of a positive exponent. -/
def padded (d : Decimal) : Decimal := ⟨d.digits * 10 ^ d.exponent.toNat, min d.exponent 0⟩

theorem toMagnitude?_padded (d : Decimal) : d.padded.toMagnitude? = d.toMagnitude? := by
  have hexponent : min d.exponent 0 + (d.exponent.toNat : Int) = d.exponent := by omega
  rw [padded, toMagnitude?_shift, hexponent]

theorem padded_of_neg {d : Decimal} (h : d.exponent < 0) : d.padded = d := by
  have hup : d.exponent.toNat = 0 := by omega
  have hmin : min d.exponent 0 = d.exponent := by omega
  rw [padded, hup, hmin, Nat.pow_zero, Nat.mul_one]

/-- The digits and then zeros up to the point. -/
theorem laysOut_zerosAfter {d : Decimal} (hexponent : 0 ≤ d.exponent) :
    LaysOut (d.digitChars ++ List.replicate d.exponent.toNat '0') d.padded := by
  refine ⟨d.digitChars ++ List.replicate d.exponent.toNat '0', [], rfl, ?_, ?_, ?_, ?_⟩
  · exact List.append_ne_nil_of_left_ne_nil Nat.toDigits_ne_nil _
  · intro c hc
    rcases List.mem_append.mp hc with hc | hc
    · exact isDigit_of_mem_digitChars hc
    · exact isDigit_of_mem_zeros hc
  · intro c hc
    exact absurd hc List.not_mem_nil
  · have hmin : min d.exponent 0 = 0 := by omega
    rw [ofDigits, List.append_nil, Nat.ofDigitChars_append, d.ofDigitChars_digitChars,
      Nat.ofDigitChars_replicate_zero, Nat.mul_comm, padded, hmin]
    rfl

/-- The point between two digits. -/
theorem laysOut_pointInside {d : Decimal} (hexponent : d.exponent < 0)
    (hplaces : (-d.exponent).toNat < d.digitChars.length) :
    LaysOut (d.digitChars.take (d.digitChars.length - (-d.exponent).toNat) ++
      '.' :: d.digitChars.drop (d.digitChars.length - (-d.exponent).toNat)) d.padded := by
  have hlength : (d.digitChars.drop (d.digitChars.length - (-d.exponent).toNat)).length
      = (-d.exponent).toNat := by
    rw [List.length_drop]
    omega
  refine ⟨d.digitChars.take (d.digitChars.length - (-d.exponent).toNat),
    d.digitChars.drop (d.digitChars.length - (-d.exponent).toNat), ?_, ?_, ?_, ?_, ?_⟩
  · have hfraction : d.digitChars.drop (d.digitChars.length - (-d.exponent).toNat) ≠ [] := by
      rw [Ne, List.drop_eq_nil_iff]
      omega
    exact (if_neg hfraction).symm
  · intro htake
    rcases List.take_eq_nil_iff.mp htake with hzero | hnil
    · omega
    · exact Nat.toDigits_ne_nil hnil
  · intro c hc
    exact isDigit_of_mem_digitChars (List.mem_of_mem_take hc)
  · intro c hc
    exact isDigit_of_mem_digitChars (List.mem_of_mem_drop hc)
  · have hexp : -((-d.exponent).toNat : Int) = d.exponent := by omega
    rw [ofDigits, List.take_append_drop, d.ofDigitChars_digitChars, hlength, hexp,
      padded_of_neg hexponent]

/-- Zeros between the point and the digits. -/
theorem laysOut_zerosBefore {d : Decimal} (hexponent : d.exponent < 0)
    (hplaces : d.digitChars.length ≤ (-d.exponent).toNat) :
    LaysOut ('0' :: '.' ::
      (List.replicate ((-d.exponent).toNat - d.digitChars.length) '0' ++ d.digitChars))
      d.padded := by
  have hlength : -((List.replicate ((-d.exponent).toNat - d.digitChars.length) '0'
      ++ d.digitChars).length : Int) = d.exponent := by
    rw [List.length_append, List.length_replicate]
    omega
  have hfraction : List.replicate ((-d.exponent).toNat - d.digitChars.length) '0'
      ++ d.digitChars ≠ [] := List.append_ne_nil_of_right_ne_nil _ Nat.toDigits_ne_nil
  refine ⟨['0'], List.replicate ((-d.exponent).toNat - d.digitChars.length) '0' ++ d.digitChars,
    (if_neg hfraction).symm, by simp, ?_, ?_, ?_⟩
  · intro c hc
    rw [List.mem_singleton.mp hc]
    decide
  · intro c hc
    rcases List.mem_append.mp hc with hc | hc
    · exact isDigit_of_mem_zeros hc
    · exact isDigit_of_mem_digitChars hc
  · have hzero : Nat.ofDigitChars 10 ['0'] 0 = 0 := by decide
    rw [ofDigits, hlength, Nat.ofDigitChars_append, Nat.ofDigitChars_append, hzero,
      Nat.ofDigitChars_replicate_zero, Nat.mul_zero, d.ofDigitChars_digitChars,
      padded_of_neg hexponent]

/-- The positional layout has the digits of the decimal. -/
theorem laysOut_positional (d : Decimal) : LaysOut d.positional d.padded := by
  rw [positional]
  by_cases hexponent : 0 ≤ d.exponent
  · rw [if_pos hexponent]
    exact laysOut_zerosAfter hexponent
  · rw [if_neg hexponent]
    by_cases hplaces : (-d.exponent).toNat < d.digitChars.length
    · rw [if_pos hplaces]
      exact laysOut_pointInside (Int.not_le.mp hexponent) hplaces
    · rw [if_neg hplaces]
      exact laysOut_zerosBefore (Int.not_le.mp hexponent) (Nat.not_lt.mp hplaces)

end Decimal

/-! ### Number texts -/

namespace Magnitude

theorem whole_mul_unitsPerOne {m : Magnitude} (h : m.isWhole = true) :
    m.whole * unitsPerOne = m.units := by
  have hmod : m.units % unitsPerOne = 0 := of_decide_eq_true h
  exact Nat.div_mul_cancel (Nat.dvd_of_mod_eq_zero hmod)

/-- The text of a magnitude is read as the magnitude. -/
theorem writes_numberText (m : Magnitude) : Writes m.numberText (some m) := by
  rw [numberText]
  split
  · next hwhole =>
    have hreads : (⟨m.whole, 0⟩ : Decimal).toMagnitude? = some m := by
      refine nearest?_of_eq Nat.one_pos ?_
      exact (congrArg (· * unitsPerOne) (Nat.mul_one m.whole)).trans
        ((whole_mul_unitsPerOne hwhole).trans (Nat.mul_one _).symm)
    rw [← hreads]
    exact (laysOut_toDigits m.whole).writes
  · rw [← toMagnitude?_shortest m, ← Decimal.toMagnitude?_padded]
    exact (Decimal.laysOut_positional m.shortest).writes

end Magnitude

end Calculator
