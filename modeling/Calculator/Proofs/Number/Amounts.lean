/-
  Calculator/Proofs/Number/Amounts.lean
  =====================================
  **What the texts of numbers denote.**  A literal has neither a sign nor an
  exponent, and the texts that are written for numbers can have both.  Such a text
  still denotes one rational: no literal has an `e` in it, so the exponent starts
  at the first one, and no literal starts with a minus sign.

  The positional and the scientific layout of a decimal denote the decimal, and
  the numeral of a number without a fraction denotes the number.  So what is left
  to say about a number text is which decimal was taken.
-/
import Calculator.Proofs.Number.Literals

namespace Calculator

/-! ### Literals with an exponent and a sign -/

theorem Denotes.unique {text : List Char} {q r : ℚ} (hq : Denotes text q) (hr : Denotes text r) :
    q = r := by
  obtain ⟨d, hd, rfl⟩ := denotes_iff.mp hq
  obtain ⟨e, he, rfl⟩ := denotes_iff.mp hr
  rw [hd.unique he]

theorem Denotes.ne_nil {text : List Char} {q : ℚ} (h : Denotes text q) : text ≠ [] := by
  cases h with
  | digits hne hdigits => exact hne
  | _ => simp

theorem Denotes.forall_isNumberPart {text : List Char} {q : ℚ} (h : Denotes text q) :
    ∀ c ∈ text, isNumberPart c = true := by
  have hpart : ∀ c : Char, c.isDigit = true → isNumberPart c = true := by
    intro c hc
    rw [isNumberPart, hc, Bool.true_or]
  intro c hc
  obtain ⟨d, hnumeral, -⟩ := denotes_iff.mp h
  cases hnumeral with
  | digits hne hwhole => exact hpart c (hwhole c hc)
  | pointed hne hwhole hfraction =>
    rcases List.mem_append.mp hc with hc | hc
    · exact hpart c (hwhole c hc)
    · rcases List.mem_cons.mp hc with rfl | hc
      · rfl
      · exact hpart c (hfraction c hc)

/-- An exponent, which may be missing, and the power of ten that it stands for. -/
inductive IsExponent : List Char → Int → Prop where
  | absent : IsExponent [] 0
  | raised {digits : List Char} (hne : digits ≠ []) (hdigits : ∀ c ∈ digits, c.isDigit = true) :
      IsExponent ('e' :: '+' :: digits) (Nat.ofDigitChars 10 digits 0)
  | lowered {digits : List Char} (hne : digits ≠ []) (hdigits : ∀ c ∈ digits, c.isDigit = true) :
      IsExponent ('e' :: '-' :: digits) (-(Nat.ofDigitChars 10 digits 0 : Int))

/-- A literal and perhaps an exponent, and the rational that they denote. -/
inductive IsScaled : List Char → ℚ → Prop where
  | scaled {mantissa mark : List Char} {q : ℚ} {n : Int} (hmantissa : Denotes mantissa q)
      (hmark : IsExponent mark n) : IsScaled (mantissa ++ mark) (q * 10 ^ n)

/-- A text of the same kind and perhaps a minus sign before it, and the rational that it
denotes. -/
inductive IsAmount : List Char → ℚ → Prop where
  | positive {text : List Char} {q : ℚ} (h : IsScaled text q) : IsAmount text q
  | negative {text : List Char} {q : ℚ} (h : IsScaled text q) : IsAmount ('-' :: text) (-q)

/-! ### One rational for a text -/

theorem IsExponent.unique {mark : List Char} {m n : Int} (hm : IsExponent mark m)
    (hn : IsExponent mark n) : m = n := by
  generalize hother : mark = other at hn
  cases hm with
  | absent =>
    cases hn with
    | absent => rfl
    | raised hne hdigits => cases hother
    | lowered hne hdigits => cases hother
  | raised hne hdigits =>
    cases hn with
    | absent => cases hother
    | raised hne' hdigits' => simp_all
    | lowered hne' hdigits' => simp at hother
  | lowered hne hdigits =>
    cases hn with
    | absent => cases hother
    | raised hne' hdigits' => simp at hother
    | lowered hne' hdigits' => simp_all

/-- No part of a literal is an `e`, so the literal ends where the exponent starts. -/
theorem takeWhile_mantissa {mantissa mark : List Char} {q : ℚ} {n : Int}
    (hmantissa : Denotes mantissa q) (hmark : IsExponent mark n) :
    (mantissa ++ mark).takeWhile isNumberPart = mantissa := by
  apply takeWhile_word hmantissa.forall_isNumberPart
  cases hmark with
  | absent => exact fun c hc => absurd hc (by simp)
  | raised hne hdigits => exact startsWithout_cons rfl _
  | lowered hne hdigits => exact startsWithout_cons rfl _

theorem IsScaled.unique {text : List Char} {q r : ℚ} (hq : IsScaled text q)
    (hr : IsScaled text r) : q = r := by
  generalize hother : text = other at hr
  obtain ⟨hmantissa, hmark⟩ := hq
  obtain ⟨hmantissa', hmark'⟩ := hr
  have hsame := takeWhile_mantissa hmantissa hmark
  rw [hother, takeWhile_mantissa hmantissa' hmark'] at hsame
  subst hsame
  obtain rfl := List.append_cancel_left hother
  rw [hmantissa.unique hmantissa', hmark.unique hmark']

theorem IsScaled.head_ne_minus {text : List Char} {q : ℚ} (h : IsScaled ('-' :: text) q) :
    False := by
  generalize hwhole : '-' :: text = whole at h
  obtain ⟨hmantissa, hmark⟩ := h
  obtain ⟨c, rest, rfl⟩ := List.exists_cons_of_ne_nil hmantissa.ne_nil
  have hpart := hmantissa.forall_isNumberPart c List.mem_cons_self
  obtain rfl : '-' = c := (List.cons.inj hwhole).1
  cases hpart

/-- A text denotes one rational at most. -/
theorem IsAmount.unique {text : List Char} {q r : ℚ} (hq : IsAmount text q)
    (hr : IsAmount text r) : q = r := by
  cases hq with
  | positive hq =>
    cases hr with
    | positive hr => exact hq.unique hr
    | negative hr => exact hq.head_ne_minus.elim
  | negative hq =>
    cases hr with
    | positive hr => exact hr.head_ne_minus.elim
    | negative hr => rw [hq.unique hr]

theorem IsAmount.iff_eq {text : List Char} {q : ℚ} (h : IsAmount text q) (r : ℚ) :
    IsAmount text r ↔ r = q := by
  constructor
  · intro hr
    exact hr.unique h
  · rintro rfl
    exact h

theorem Denotes.isScaled {text : List Char} {q : ℚ} (h : Denotes text q) : IsScaled text q := by
  simpa using IsScaled.scaled h .absent

/-! ### Decimals of one value -/

namespace Decimal

theorem value_shift (n k : Nat) (e : Int) :
    value ⟨n * 10 ^ k, e⟩ = value ⟨n, e + k⟩ := by
  rw [value, value, Nat.cast_mul, Nat.cast_pow, Nat.cast_ofNat, mul_assoc, ← zpow_natCast,
    ← zpow_add₀ (by norm_num), add_comm]

theorem value_padded (d : Decimal) : d.padded.value = d.value := by
  have hexponent : min d.exponent 0 + (d.exponent.toNat : Int) = d.exponent := by omega
  rw [padded, value_shift, hexponent]

theorem value_trim (d : Decimal) : d.trim.value = d.value := by
  obtain ⟨k, hdigits, hexponent⟩ := d.exists_shift_trim
  have hshift := value_shift d.trim.digits k d.exponent
  rw [← hdigits, ← hexponent] at hshift
  exact hshift.symm

end Decimal

/-! ### Layouts of a decimal -/

theorem LaysOut.denotes {text : List Char} {d : Decimal} (h : LaysOut text d) :
    Denotes text d.value := by
  obtain ⟨whole, fraction, rfl, hne, hwhole, hfraction, rfl⟩ := h
  apply denotes_iff.mpr
  refine ⟨_, ?_, rfl⟩
  by_cases hnil : fraction = []
  · subst hnil
    exact .digits hne hwhole
  · rw [pointed, if_neg hnil]
    exact .pointed (Or.inl hne) hwhole hfraction

namespace Decimal

theorem denotes_positional (d : Decimal) : Denotes d.positional d.value := by
  rw [← d.value_padded]
  exact d.laysOut_positional.denotes

/-- A fraction of a zero may be added where there is none. -/
theorem denotes_positional_concat {d : Decimal} (h : 0 ≤ d.exponent) :
    Denotes (d.positional ++ ".0".toList) d.value := by
  have hpoint : '.' ∉ d.positional := by
    rw [positional, if_pos h]
    intro hmem
    rcases List.mem_append.mp hmem with hmem | hmem
    · exact absurd (isDigit_of_mem_digitChars hmem) (by decide)
    · exact absurd (isDigit_of_mem_zeros hmem) (by decide)
  have hwith : Denotes (d.positional ++ ['.']) d.value :=
    denotes_concat_point d.denotes_positional hpoint
  have hzero := denotes_concat_zero hwith (by simp)
  rwa [List.append_assoc] at hzero

theorem isExponent_exponentMark (n : Int) : IsExponent (exponentMark n) n := by
  have hpadded : ∃ digits : List Char, exponentMark n = 'e' :: (if n < 0 then '-' else '+') :: digits ∧
      digits ≠ [] ∧ (∀ c ∈ digits, c.isDigit = true) ∧
      Nat.ofDigitChars 10 digits 0 = n.natAbs := by
    refine ⟨_, rfl, ?_⟩
    have hdigits : ∀ c ∈ Nat.toDigits 10 n.natAbs, c.isDigit = true := fun c hc =>
      Nat.isDigit_of_mem_toDigits (by decide) (by decide) hc
    split
    · refine ⟨by simp, by simpa using hdigits, ?_⟩
      simp [Nat.ofDigitChars_cons, Nat.ofDigitChars_ten_toDigits]
    · exact ⟨Nat.toDigits_ne_nil, hdigits, Nat.ofDigitChars_ten_toDigits⟩
  obtain ⟨digits, hmark, hne, hdigits, hvalue⟩ := hpadded
  rw [hmark]
  by_cases hneg : n < 0
  · have hn : -(Nat.ofDigitChars 10 digits 0 : Int) = n := by omega
    rw [if_pos hneg]
    exact hn ▸ .lowered hne hdigits
  · have hn : (Nat.ofDigitChars 10 digits 0 : Int) = n := by omega
    rw [if_neg hneg]
    exact hn ▸ .raised hne hdigits

/-- The point after the first digit moves the exponent up by the number of the others. -/
theorem isScaled_scientific (d : Decimal) : IsScaled d.scientific d.value := by
  obtain ⟨c, rest, hchars⟩ := List.exists_cons_of_ne_nil (Nat.toDigits_ne_nil (b := 10) (n := d.digits))
  have hchars : d.digitChars = c :: rest := hchars
  have hdigits : ∀ e ∈ c :: rest, e.isDigit = true := by
    intro e he
    exact isDigit_of_mem_digitChars (hchars ▸ he)
  have hlays : LaysOut (pointed [c] rest) ⟨d.digits, -(rest.length : Int)⟩ := by
    refine ⟨[c], rest, rfl, by simp, ?_, ?_, ?_⟩
    · intro e he
      exact hdigits e (List.mem_cons.mpr (Or.inl (List.mem_singleton.mp he)))
    · intro e he
      exact hdigits e (List.mem_cons_of_mem c he)
    · rw [ofDigits, List.singleton_append, ← hchars, d.ofDigitChars_digitChars]
  have htext : d.scientific = pointed [c] rest ++ exponentMark (d.pointPlace - 1) := by
    rw [scientific, hchars]
    cases rest with
    | nil => rfl
    | cons e more => rfl
  have hplace : -(rest.length : Int) + (d.pointPlace - 1) = d.exponent := by
    rw [pointPlace, hchars, List.length_cons]
    omega
  have hvalue : value ⟨d.digits, -(rest.length : Int)⟩ * 10 ^ (d.pointPlace - 1) = d.value := by
    rw [value, value, mul_assoc, ← zpow_add₀ (by norm_num), hplace]
  rw [htext, ← hvalue]
  exact .scaled hlays.denotes (isExponent_exponentMark _)

end Decimal

/-! ### Texts of magnitudes -/

namespace Magnitude

theorem value_of_isWhole {m : Magnitude} (h : m.isWhole = true) : m.value = m.whole := by
  have hpos : (0 : ℚ) < unitsPerOne := cast_unitsPerOne_pos
  rw [value, ← whole_mul_unitsPerOne h, Nat.cast_mul, mul_div_cancel_right₀ _ hpos.ne']

theorem denotes_numberText_of_isWhole {m : Magnitude} (h : m.isWhole = true) :
    Denotes m.numberText m.value := by
  have hvalue : m.value = Decimal.value ⟨m.whole, 0⟩ := by
    rw [value_of_isWhole h, Decimal.value, zpow_zero, mul_one]
  rw [numberText, if_pos h, hvalue]
  exact (laysOut_toDigits m.whole).denotes

theorem denotes_numberText_of_not_isWhole {m : Magnitude} (h : ¬m.isWhole = true) :
    Denotes m.numberText m.shortest.value := by
  rw [numberText, if_neg h]
  exact m.shortest.denotes_positional

/-- Each of the three layouts of the debug text denotes the shortest decimal. -/
theorem isScaled_debugText {m : Magnitude} (h : m.units ≠ 0) :
    IsScaled m.debugText m.shortest.value := by
  rw [debugText, if_neg h]
  dsimp only
  split
  · split
    · next hexponent => exact (Decimal.denotes_positional_concat hexponent).isScaled
    · exact m.shortest.denotes_positional.isScaled
  · exact m.shortest.isScaled_scientific

end Magnitude

/-! ### Texts of numbers -/

/-- The rational of a given sign. -/
def withSign (neg : Bool) (q : ℚ) : ℚ := if neg then -q else q

section Sign

variable {neg : Bool} {q r : ℚ}

theorem withSign_abs (q : ℚ) : withSign (decide (q < 0)) |q| = q := by
  by_cases h : q < 0
  · rw [decide_eq_true h, withSign, if_pos rfl, abs_of_neg h, neg_neg]
  · rw [decide_eq_false h, withSign, if_neg (by decide), abs_of_nonneg (not_lt.mp h)]

theorem abs_withSign (h : 0 ≤ q) : |withSign neg q| = q := by
  cases neg with
  | false => exact abs_of_nonneg h
  | true => exact (abs_neg q).trans (abs_of_nonneg h)

theorem decide_withSign_neg (h : 0 < q) : decide (withSign neg q < 0) = neg := by
  cases neg with
  | false => exact decide_eq_false h.not_gt
  | true => exact decide_eq_true (neg_lt_zero.mpr h)

theorem abs_withSign_sub : |withSign neg q - withSign neg r| = |q - r| := by
  cases neg with
  | false => rfl
  | true =>
    have hsign : -q - -r = -(q - r) := by ring
    exact (congrArg abs hsign).trans (abs_neg _)

end Sign

theorem isAmount_signed {text : List Char} {q : ℚ} (h : IsScaled text q) (neg : Bool) :
    IsAmount (signed neg text).toList (withSign neg q) := by
  rw [signed, String.toList_ofList]
  cases neg with
  | false => exact .positive h
  | true => exact .negative h

namespace Binary64

/-- The value of a finite number. -/
def value (x : Binary64) : ℚ := x.units / unitsPerOne

/-- A number without a fraction. -/
def IsIntegral (x : Binary64) : Prop := ∃ n : ℤ, x.value = n

theorem value_finite (neg : Bool) (m : Magnitude) :
    (finite neg m).value = withSign neg m.value := by
  cases neg with
  | false => exact congrArg (· / (unitsPerOne : ℚ)) (Int.cast_natCast m.units)
  | true =>
    have hunits : ((finite true m).units : ℚ) = -(m.units : ℚ) := by
      rw [units, Int.cast_neg, Int.cast_natCast]
    rw [value, hunits, neg_div]
    rfl

theorem isIntegral_finite_iff {neg : Bool} {m : Magnitude} :
    (finite neg m).IsIntegral ↔ m.isWhole = true := by
  have hpos : (0 : ℚ) < unitsPerOne := cast_unitsPerOne_pos
  constructor
  · rintro ⟨n, hn⟩
    rw [value, div_eq_iff hpos.ne'] at hn
    have hunits : (finite neg m).units = n * (unitsPerOne : Int) := by exact_mod_cast hn
    have habs : m.units = n.natAbs * unitsPerOne := by
      rw [← Int.natAbs_natCast unitsPerOne, ← Int.natAbs_mul, ← hunits]
      cases neg with
      | false => exact (Int.natAbs_natCast m.units).symm
      | true => exact ((Int.natAbs_neg _).trans (Int.natAbs_natCast m.units)).symm
    exact decide_eq_true (Nat.mod_eq_zero_of_dvd ⟨n.natAbs, by rw [habs, Nat.mul_comm]⟩)
  · intro hwhole
    rw [IsIntegral, value_finite, Magnitude.value_of_isWhole hwhole]
    cases neg with
    | false => exact ⟨m.whole, (Int.cast_natCast m.whole).symm⟩
    | true => exact ⟨-(m.whole : ℤ), by rw [Int.cast_neg, Int.cast_natCast]; rfl⟩

end Binary64

end Calculator
