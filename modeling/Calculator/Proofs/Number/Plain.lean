/-
  Calculator/Proofs/Number/Plain.lean
  ===================================
  **Number texts have no superfluous zeros.**  A text of digits is plain if its
  whole part is a zero or does not start with one, and if its fraction, when
  there is one, does not end with one.  A numeral never starts with a zero except
  for zero itself, and the digits of a shortest decimal never end with one,
  because the zeros at their end have been moved into the exponent.  Only whole
  numbers could have zeros there, and these have a text of their own.
-/
import Calculator.Proofs.Number.ReadBack

namespace Calculator

/-! ### Plain texts -/

def isPositiveDigit (c : Char) : Bool := c.isDigit && c ≠ '0'

/-- A zero, or digits that do not start with a zero. -/
def IsWholePart (text : List Char) : Prop :=
  text = ['0'] ∨
    ∃ c rest, text = c :: rest ∧ isPositiveDigit c = true ∧ ∀ d ∈ rest, d.isDigit = true

/-- Nothing, or a point and digits that do not end with a zero. -/
def IsFraction (text : List Char) : Prop :=
  text = [] ∨
    ∃ digits c, text = '.' :: (digits ++ [c]) ∧ (∀ d ∈ digits, d.isDigit = true) ∧
      isPositiveDigit c = true

/-- Digits, and perhaps a point with more of them, without superfluous zeros. -/
def IsPlain (text : List Char) : Prop :=
  ∃ whole fraction, text = whole ++ fraction ∧ IsWholePart whole ∧ IsFraction fraction

section Parts

variable {text : List Char}

theorem isWholePart_of_head (hne : text ≠ []) (hdigits : ∀ c ∈ text, c.isDigit = true)
    (hhead : text.head hne ≠ '0') : IsWholePart text := by
  cases text with
  | nil => exact absurd rfl hne
  | cons c rest =>
    have hc : isPositiveDigit c = true := by
      have hdigit : c.isDigit = true := hdigits c List.mem_cons_self
      simpa [isPositiveDigit, hdigit] using hhead
    exact Or.inr ⟨c, rest, rfl, hc, fun d hd => hdigits d (List.mem_cons_of_mem c hd)⟩

theorem isFraction_of_getLast (hne : text ≠ []) (hdigits : ∀ c ∈ text, c.isDigit = true)
    (hlast : text.getLast hne ≠ '0') : IsFraction ('.' :: text) := by
  have hc : isPositiveDigit (text.getLast hne) = true := by
    have hdigit := hdigits _ (List.getLast_mem hne)
    simpa [isPositiveDigit, hdigit] using hlast
  refine Or.inr ⟨text.dropLast, text.getLast hne, ?_, ?_, hc⟩
  · rw [List.dropLast_concat_getLast hne]
  · intro d hd
    exact hdigits d (List.dropLast_subset text hd)

theorem isPlain_of_isWholePart (h : IsWholePart text) : IsPlain text :=
  ⟨text, [], (List.append_nil text).symm, h, Or.inl rfl⟩

end Parts

/-! ### The first and the last digit of a numeral -/

theorem getLast_toDigits (n : Nat) :
    (Nat.toDigits 10 n).getLast Nat.toDigits_ne_nil = (n % 10).digitChar := by
  by_cases h : n < 10
  · simp [Nat.toDigits_of_lt_base h, Nat.mod_eq_of_lt h]
  · simp [Nat.toDigits_of_base_le (b := 10) (by decide) (Nat.not_lt.mp h)]

theorem head_toDigits {n : Nat} (h : n ≠ 0) :
    (Nat.toDigits 10 n).head Nat.toDigits_ne_nil ≠ '0' := by
  induction n using Nat.strongRecOn with
  | ind n ih =>
    by_cases hsmall : n < 10
    · simpa [Nat.toDigits_of_lt_base hsmall] using h
    · have hle : 10 ≤ n := Nat.not_lt.mp hsmall
      have hfront := ih (n / 10) (by omega) (by omega)
      simpa [Nat.toDigits_of_base_le (by decide) hle, List.head_append_of_ne_nil,
        Nat.toDigits_ne_nil] using hfront

theorem isWholePart_toDigits (n : Nat) : IsWholePart (Nat.toDigits 10 n) := by
  by_cases h : n = 0
  · subst h
    exact Or.inl rfl
  · refine isWholePart_of_head Nat.toDigits_ne_nil ?_ (head_toDigits h)
    intro c hc
    exact Nat.isDigit_of_mem_toDigits (by decide) (by decide) hc

namespace Decimal

/-! ### Trimmed digits -/

theorem digits_trimZeros {count : Nat} {d : Decimal} (hne : d.digits ≠ 0)
    (hlt : d.digits < 10 ^ count) : (trimZeros count d).digits % 10 ≠ 0 := by
  induction count generalizing d with
  | zero =>
    rw [Nat.pow_zero] at hlt
    omega
  | succ count ih =>
    rw [trimZeros]
    split
    · next hzero =>
      have hrest : d.digits / 10 < 10 ^ count := by
        rw [Nat.pow_succ] at hlt
        omega
      have hrestNe : d.digits / 10 ≠ 0 := by omega
      exact ih hrestNe hrest
    · next hlast => exact hlast

theorem digits_trim {d : Decimal} (hne : d.digits ≠ 0) : d.trim.digits % 10 ≠ 0 := by
  have hlength : d.digits < 10 ^ d.digitChars.length :=
    (Nat.length_toDigits_le_iff (by decide) Nat.length_toDigits_pos).mp (Nat.le_refl _)
  exact digits_trimZeros hne hlength

theorem digits_trim_le (d : Decimal) : d.trim.digits ≤ d.digits := by
  obtain ⟨k, hdigits, -⟩ := d.exists_shift_trim
  rw [hdigits]
  exact Nat.le_mul_of_pos_right d.trim.digits (ten_pow_pos k)

/-- Digits that were rounded up to a power of ten are trimmed to fewer. -/
theorem digits_trim_lt {d : Decimal} {k : Nat} (hne : d.digits ≠ 0) (hle : d.digits ≤ 10 ^ k)
    (hk : 0 < k) : d.trim.digits < 10 ^ k := by
  apply Nat.lt_of_le_of_ne (Nat.le_trans d.digits_trim_le hle)
  intro heq
  obtain ⟨n, rfl⟩ := Nat.exists_eq_succ_of_ne_zero (Nat.ne_of_gt hk)
  apply digits_trim hne
  rw [heq, Nat.pow_succ, Nat.mul_mod_left]

/-! ### Layouts without superfluous zeros -/

section Layouts

variable {digits : List Char} (hne : digits ≠ []) (hdigits : ∀ c ∈ digits, c.isDigit = true)

include hdigits

theorem isPlain_zerosAfter (hfirst : digits.head hne ≠ '0') (count : Nat) :
    IsPlain (digits ++ List.replicate count '0') := by
  refine isPlain_of_isWholePart (isWholePart_of_head ?_ ?_ ?_)
  · exact List.append_ne_nil_of_left_ne_nil hne _
  · intro c hc
    rcases List.mem_append.mp hc with hc | hc
    · exact hdigits c hc
    · exact isDigit_of_mem_zeros hc
  · rwa [List.head_append_of_ne_nil]

theorem isPlain_pointInside (hfirst : digits.head hne ≠ '0') (hlast : digits.getLast hne ≠ '0')
    {place : Nat} (hpos : 0 < place) (hlt : place < digits.length) :
    IsPlain (digits.take place ++ '.' :: digits.drop place) := by
  have htake : digits.take place ≠ [] := by
    rw [Ne, List.take_eq_nil_iff]
    rintro (hzero | hnil)
    · omega
    · exact hne hnil
  have hdrop : digits.drop place ≠ [] := by
    rw [Ne, List.drop_eq_nil_iff]
    omega
  refine ⟨_, _, rfl, isWholePart_of_head htake ?_ ?_, isFraction_of_getLast hdrop ?_ ?_⟩
  · intro c hc
    exact hdigits c (List.mem_of_mem_take hc)
  · rwa [List.head_take]
  · intro c hc
    exact hdigits c (List.mem_of_mem_drop hc)
  · rwa [List.getLast_drop]

theorem isPlain_zerosBefore (hlast : digits.getLast hne ≠ '0') (count : Nat) :
    IsPlain ('0' :: '.' :: (List.replicate count '0' ++ digits)) := by
  refine ⟨['0'], _, rfl, Or.inl rfl, isFraction_of_getLast ?_ ?_ ?_⟩
  · exact List.append_ne_nil_of_right_ne_nil _ hne
  · intro c hc
    rcases List.mem_append.mp hc with hc | hc
    · exact isDigit_of_mem_zeros hc
    · exact hdigits c hc
  · rwa [List.getLast_append_of_ne_nil]

end Layouts

theorem isPlain_positional {d : Decimal} (h : d.digits % 10 ≠ 0) : IsPlain d.positional := by
  have hdigits : ∀ c ∈ d.digitChars, c.isDigit = true := fun c hc => isDigit_of_mem_digitChars hc
  have hfirst : d.digitChars.head Nat.toDigits_ne_nil ≠ '0' := head_toDigits (by omega)
  have hlast : d.digitChars.getLast Nat.toDigits_ne_nil ≠ '0' := by
    intro hzero
    exact h (Nat.digitChar_eq_zero.mp ((getLast_toDigits d.digits).symm.trans hzero))
  rw [positional]
  by_cases hexponent : 0 ≤ d.exponent
  · rw [if_pos hexponent]
    exact isPlain_zerosAfter _ hdigits hfirst _
  · rw [if_neg hexponent]
    by_cases hplaces : (-d.exponent).toNat < d.digitChars.length
    · rw [if_pos hplaces]
      exact isPlain_pointInside _ hdigits hfirst hlast (by omega) (by omega)
    · rw [if_neg hplaces]
      exact isPlain_zerosBefore _ hdigits hlast _

/-- A decimal without digits is zero. -/
theorem digits_ne_zero {d : Decimal} {m : Magnitude} (h : d.toMagnitude? = some m)
    (hm : m.units ≠ 0) : d.digits ≠ 0 := by
  intro hzero
  -- The exponent is unknown here, and zero times any power of ten is zero.
  have hnearest : d.toMagnitude? = some .zero := by
    rw [toMagnitude?, hzero, Nat.zero_mul, Nat.zero_mul]
    exact Magnitude.nearest?_of_eq (ten_pow_pos _) (Nat.zero_mul _).symm
  obtain rfl : Magnitude.zero = m := Option.some.inj (hnearest.symm.trans h)
  exact hm (Nat.zero_mul _)

end Decimal

namespace Magnitude

theorem units_ne_zero_of_not_isWhole {m : Magnitude} (h : ¬m.isWhole = true) : m.units ≠ 0 := by
  intro hzero
  rw [isWhole, hzero, Nat.zero_mod] at h
  exact h rfl

theorem digits_firstOnGrid_ne_zero {m : Magnitude} (h : m.units ≠ 0) (dropped : Nat) :
    (m.firstOnGrid dropped).digits ≠ 0 :=
  Decimal.digits_ne_zero (m.toMagnitude?_firstOnGrid dropped) h

theorem isPlain_numberText (m : Magnitude) : IsPlain m.numberText := by
  rw [numberText]
  by_cases hwhole : m.isWhole = true
  · rw [if_pos hwhole]
    exact isPlain_of_isWholePart (isWholePart_toDigits m.whole)
  · rw [if_neg hwhole]
    have hne := digits_firstOnGrid_ne_zero (units_ne_zero_of_not_isWhole hwhole)
    exact Decimal.isPlain_positional (Decimal.digits_trim (hne _))

end Magnitude

end Calculator
