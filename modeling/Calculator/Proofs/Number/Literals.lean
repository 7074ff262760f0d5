/-
  Calculator/Proofs/Number/Literals.lean
  ======================================
  **Literals are rounded correctly.**  A literal is digits, with at most one
  point before, inside or after them, and denotes a rational.  The scanner reads
  it as a decimal of the same value, whatever the number of its digits, and the
  decimal is rounded once.  So a number token is the number nearest to what its
  text denotes, ties to even.

  The nearest number is a function of the rational, and a monotone one.  Zeros in
  front, zeros at the end of a fraction and a point at the end change nothing in
  the rational, and so nothing in the number either.
-/
import Calculator.Proofs.Expr.Parsing
import Calculator.Proofs.Number.Rounding
import Calculator.Proofs.Token.Spans
import Mathlib.Data.List.TakeWhile
import Mathlib.Tactic.NormNum

namespace Calculator

/-! ### Values of decimals -/

namespace Decimal

/-- The rational that a decimal stands for. -/
def value (d : Decimal) : ℚ := d.digits * 10 ^ d.exponent

theorem value_eq (d : Decimal) :
    d.value = d.digits * 10 ^ d.exponent.toNat / 10 ^ (-d.exponent).toNat := by
  have hexponent : d.exponent = d.exponent.toNat - (-d.exponent).toNat := by omega
  rw [value, mul_div_assoc, ← zpow_natCast, ← zpow_natCast, ← zpow_sub₀ (by norm_num),
    ← hexponent]

/-- The quotient that a decimal is rounded as. -/
theorem value_eq_quotient (d : Decimal) :
    d.value = (d.digits * 10 ^ d.exponent.toNat * unitsPerOne : ℕ) /
      (10 ^ (-d.exponent).toNat : ℕ) / unitsPerOne := by
  have hpos : (0 : ℚ) < unitsPerOne := cast_unitsPerOne_pos
  rw [value_eq]
  push_cast
  field_simp

theorem isNearest_toBinary64 (d : Decimal) : Binary64.IsNearest false d.value d.toBinary64 := by
  rw [toBinary64, toMagnitude?, ← Binary64.ofRatio]
  exact Binary64.isNearest_ofRatio false (ten_pow_pos _) d.value_eq_quotient

/-- The digits after the point count parts of a power of ten. -/
theorem value_ofDigits (whole fraction : List Char) :
    (ofDigits whole fraction).value =
      Nat.ofDigitChars 10 whole 0 + Nat.ofDigitChars 10 fraction 0 / 10 ^ fraction.length := by
  have hpos : (0 : ℚ) < 10 ^ fraction.length := by positivity
  simp only [value, ofDigits, Nat.ofDigitChars_append, zpow_neg, zpow_natCast]
  rw [Nat.ofDigitChars_eq_ofDigitChars_zero]
  push_cast
  field_simp

theorem ofDigits_zero_cons (whole fraction : List Char) :
    ofDigits ('0' :: whole) fraction = ofDigits whole fraction := by
  simp [ofDigits, Nat.ofDigitChars_cons]

theorem value_ofDigits_concat (whole fraction : List Char) :
    (ofDigits whole (fraction ++ ['0'])).value = (ofDigits whole fraction).value := by
  have hzero : Nat.ofDigitChars 10 (fraction ++ ['0']) 0 = 10 * Nat.ofDigitChars 10 fraction 0 := by
    simp [Nat.ofDigitChars_append, Nat.ofDigitChars_cons]
  rw [value_ofDigits, value_ofDigits, hzero, List.length_append, List.length_singleton, pow_succ]
  push_cast
  field_simp

end Decimal

/-! ### Literals -/

/-- A literal, and the rational that it denotes. -/
inductive Denotes : List Char → ℚ → Prop where
  | digits {digits : List Char} (hne : digits ≠ []) (hdigits : ∀ c ∈ digits, c.isDigit = true) :
      Denotes digits (Nat.ofDigitChars 10 digits 0)
  | pointAfter {digits : List Char} (hne : digits ≠ [])
      (hdigits : ∀ c ∈ digits, c.isDigit = true) :
      Denotes (digits ++ ['.']) (Nat.ofDigitChars 10 digits 0)
  | pointBefore {digits : List Char} (hne : digits ≠ [])
      (hdigits : ∀ c ∈ digits, c.isDigit = true) :
      Denotes ('.' :: digits) (Nat.ofDigitChars 10 digits 0 / 10 ^ digits.length)
  | pointInside {whole fraction : List Char} (hwhole : whole ≠ []) (hfraction : fraction ≠ [])
      (hwholeDigits : ∀ c ∈ whole, c.isDigit = true)
      (hfractionDigits : ∀ c ∈ fraction, c.isDigit = true) :
      Denotes (whole ++ '.' :: fraction)
        (Nat.ofDigitChars 10 whole 0 + Nat.ofDigitChars 10 fraction 0 / 10 ^ fraction.length)

theorem denotes_iff {text : List Char} {q : ℚ} :
    Denotes text q ↔ ∃ d, IsNumeral text d ∧ d.value = q := by
  constructor
  · intro h
    cases h with
    | digits hne hdigits => exact ⟨_, .digits hne hdigits, by simp [Decimal.value_ofDigits]⟩
    | pointAfter hne hdigits =>
      exact ⟨_, .pointed (Or.inl hne) hdigits (by simp), by simp [Decimal.value_ofDigits]⟩
    | @pointBefore digits hne hdigits =>
      refine ⟨Decimal.ofDigits [] digits, ?_, by simp [Decimal.value_ofDigits]⟩
      exact .pointed (Or.inr hne) (List.forall_mem_nil _) hdigits
    | pointInside hwhole hfraction hwholeDigits hfractionDigits =>
      exact ⟨_, .pointed (Or.inl hwhole) hwholeDigits hfractionDigits, Decimal.value_ofDigits _ _⟩
  · rintro ⟨d, hnumeral, rfl⟩
    cases hnumeral with
    | digits hne hwhole =>
      have hvalue := Decimal.value_ofDigits text []
      simp only [Nat.ofDigitChars_nil, Nat.cast_zero, zero_div, add_zero] at hvalue
      rw [hvalue]
      exact .digits hne hwhole
    | @pointed whole fraction hne hwhole hfraction =>
      rw [Decimal.value_ofDigits]
      by_cases hbefore : whole = []
      · subst hbefore
        simpa using Denotes.pointBefore (hne.resolve_left (by simp)) hfraction
      · by_cases hafter : fraction = []
        · subst hafter
          simpa using Denotes.pointAfter hbefore hwhole
        · exact .pointInside hbefore hafter hwhole hfraction

/-! ### Zeros and points that change nothing -/

section Layout

variable {text : List Char} {q : ℚ}

theorem denotes_zero_cons (h : Denotes text q) : Denotes ('0' :: text) q := by
  obtain ⟨d, hnumeral, rfl⟩ := denotes_iff.mp h
  have hzero : ∀ {digits : List Char}, (∀ c ∈ digits, c.isDigit = true) →
      ∀ c ∈ '0' :: digits, c.isDigit = true := by
    intro digits hdigits
    simpa using hdigits
  apply denotes_iff.mpr
  cases hnumeral with
  | digits hne hwhole =>
    refine ⟨_, .digits (by simp) (hzero hwhole), ?_⟩
    rw [Decimal.ofDigits_zero_cons]
  | @pointed whole fraction hne hwhole hfraction =>
    refine ⟨Decimal.ofDigits ('0' :: whole) fraction, ?_, ?_⟩
    · exact .pointed (Or.inl (by simp)) (hzero hwhole) hfraction
    · rw [Decimal.ofDigits_zero_cons]

theorem denotes_concat_point (h : Denotes text q) (hpoint : '.' ∉ text) :
    Denotes (text ++ ['.']) q := by
  obtain ⟨d, hnumeral, rfl⟩ := denotes_iff.mp h
  apply denotes_iff.mpr
  cases hnumeral with
  | digits hne hwhole => exact ⟨_, .pointed (Or.inl hne) hwhole (by simp), rfl⟩
  | pointed hne hwhole hfraction => simp at hpoint

theorem denotes_concat_zero (h : Denotes text q) (hpoint : '.' ∈ text) :
    Denotes (text ++ ['0']) q := by
  obtain ⟨d, hnumeral, rfl⟩ := denotes_iff.mp h
  apply denotes_iff.mpr
  cases hnumeral with
  | digits hne hwhole => exact absurd (hwhole '.' hpoint) (by decide)
  | @pointed whole fraction hne hwhole hfraction =>
    refine ⟨Decimal.ofDigits whole (fraction ++ ['0']), ?_, Decimal.value_ofDigits_concat _ _⟩
    have hdigits : ∀ c ∈ fraction ++ ['0'], c.isDigit = true := by
      intro c hc
      rcases List.mem_append.mp hc with hc | hc
      · exact hfraction c hc
      · rw [List.mem_singleton.mp hc]
        rfl
    simpa using IsNumeral.pointed (Or.inr (by simp)) hwhole hdigits

end Layout

/-! ### Texts of numbers -/

/-- A text is the text of one decimal only. -/
theorem IsNumeral.unique {text : List Char} {d e : Decimal} (hd : IsNumeral text d)
    (he : IsNumeral text e) : d = e := by
  have hfrom : ∀ {c : Decimal}, IsNumeral text c → c = Decimal.ofDigits
      (text.takeWhile Char.isDigit) (text.drop ((text.takeWhile Char.isDigit).length + 1)) := by
    intro c hc
    cases hc with
    | digits hne hwhole =>
      rw [List.takeWhile_eq_self_iff.mpr hwhole, List.drop_eq_nil_of_le (Nat.le_succ _)]
    | @pointed whole fraction hne hwhole hfraction =>
      have hpoint : startsWithout Char.isDigit ('.' :: fraction) := startsWithout_cons rfl _
      rw [takeWhile_word hwhole hpoint]
      simp
  exact (hfrom hd).trans (hfrom he).symm

/-- A text of a number has no other form. -/
theorem exists_number_of_isForm {text : List Char} {d : Decimal} {x : Lexeme}
    (hnumeral : IsNumeral text d) (hform : IsForm text x) : x = .number d.toBinary64 := by
  obtain ⟨c, rest, rfl, hhead⟩ := Lexeme.head_of_isNumeral hnumeral
  generalize htext : c :: rest = text at hnumeral hform
  cases hform with
  | @name first word hstart hrest =>
    obtain ⟨rfl, rfl⟩ := List.cons.inj htext
    rcases hhead with hdigit | ⟨rfl, -⟩
    · rw [isNameStart_of_isDigit hdigit] at hstart
      cases hstart
    · cases hstart
  | numeral hother => rw [hother.unique hnumeral]
  | symbol s =>
    rcases hhead with hdigit | ⟨rfl, e, more, rfl, hdigit⟩
    · obtain ⟨first, word, hchars, -, -, hother⟩ := Symbol.starts_all s s.mem_all
      rw [hchars] at htext
      rw [(List.cons.inj htext).1, hother] at hdigit
      cases hdigit
    · have hprefix : s.chars <+: '.' :: e :: more := htext ▸ List.prefix_refl _
      have hlength := Symbol.length_of_point hdigit hprefix
      rw [← htext] at hlength
      simp at hlength

theorem exists_isNumeral_of_isForm {text : List Char} {x : Binary64}
    (h : IsForm text (.number x)) : ∃ d, IsNumeral text d := by
  generalize hx : Lexeme.number x = lexeme at h
  cases h with
  | name hstart hrest => cases hx
  | @numeral text d hnumeral => exact ⟨d, hnumeral⟩
  | symbol s => cases hx

/-! ### Number tokens -/

/-- A number token of a source, its value, and the rational that its text denotes. -/
structure NumberAt (source : String) (t : Token) (x : Binary64) (q : ℚ) : Prop where
  mem : ∃ tokens, tokenize source = .ok tokens ∧ t ∈ tokens
  lexeme : t.lexeme = .number x
  denotes : Denotes (t.slice source.toList) q

theorem isForm_slice {source : String} {tokens : List Token} (h : tokenize source = .ok tokens)
    {t : Token} (ht : t ∈ tokens) : IsForm (t.slice source.toList) t.lexeme := by
  have hspans : Spans source.toList 0 tokens :=
    spans_of_scans (scans_tokensFrom 0 source.toList) List.drop_zero h
  exact (hspans.longest t ht).form

theorem isNearest_of_numberAt {source : String} {t : Token} {x : Binary64} {q : ℚ}
    (h : NumberAt source t x q) : Binary64.IsNearest false q x := by
  obtain ⟨tokens, hscan, ht⟩ := h.mem
  obtain ⟨d, hnumeral, rfl⟩ := denotes_iff.mp h.denotes
  have hform := exists_number_of_isForm hnumeral (isForm_slice hscan ht)
  have hx : x = d.toBinary64 := Lexeme.number.inj (h.lexeme.symm.trans hform)
  rw [hx]
  exact d.isNearest_toBinary64

/-- A source that is a literal has one token. -/
theorem tokenize_of_isNumeral {source : String} {d : Decimal} (h : IsNumeral source.toList d) :
    tokenize source = .ok [⟨.number d.toBinary64, 0, source.length⟩] := by
  obtain ⟨x, n, hread, hle⟩ := Lexeme.exists_read? (.numeral h) (List.prefix_refl _)
  obtain ⟨word, hword, hlength, hform⟩ := Lexeme.isForm_of_read? hread
  obtain rfl : word = source.toList := hword.eq_of_length_le (by omega)
  rw [exists_number_of_isForm h hform, ← hlength] at hread
  obtain ⟨c, rest, htext, hhead⟩ := Lexeme.head_of_isNumeral h
  have hsep : isSeparator c = false := by
    rcases hhead with hdigit | ⟨rfl, -⟩
    · exact isSeparator_eq_false rfl rfl hdigit
    · rfl
  have hreads : Lexeme.read? (c :: rest ++ []) =
      some (.number d.toBinary64, (c :: rest).length) := by
    rw [List.append_nil, ← htext]
    exact hread
  have hscan := tokensFrom_word hsep hreads 0
  rw [List.append_nil, ← htext, Nat.zero_add, String.length_toList] at hscan
  rw [tokenize, hscan]
  rfl

theorem parse_number [CallStack] (x : Binary64) (start stop : Nat) :
    Expr.parse [⟨.number x, start, stop⟩] = .ok (.number x) :=
  Expr.parse_of_short (by simp)

theorem isNumber_iff {source : String} {tokens : List Token} (h : tokenize source = .ok tokens)
    {t : Token} (ht : t ∈ tokens) :
    (∃ x, t.lexeme = .number x) ↔ ∃ q, Denotes (t.slice source.toList) q := by
  have hform := isForm_slice h ht
  constructor
  · rintro ⟨x, hx⟩
    rw [hx] at hform
    obtain ⟨d, hnumeral⟩ := exists_isNumeral_of_isForm hform
    exact ⟨d.value, denotes_iff.mpr ⟨d, hnumeral, rfl⟩⟩
  · rintro ⟨q, hq⟩
    obtain ⟨d, hnumeral, -⟩ := denotes_iff.mp hq
    exact ⟨_, exists_number_of_isForm hnumeral hform⟩

theorem exists_numberAt [CallStack] {source : String} {q : ℚ} (h : Denotes source.toList q) :
    ∃ x, NumberAt source ⟨.number x, 0, source.length⟩ x q ∧
      readSource source = .ok ([⟨.number x, 0, source.length⟩], .number x) := by
  obtain ⟨d, hnumeral, -⟩ := denotes_iff.mp h
  have hscan := tokenize_of_isNumeral hnumeral
  refine ⟨d.toBinary64, ⟨⟨_, hscan, List.mem_singleton_self _⟩, rfl, ?_⟩, ?_⟩
  · have hslice : Token.slice ⟨.number d.toBinary64, 0, source.length⟩ source.toList
        = source.toList := by
      simp [Token.slice, String.length_toList]
    rw [hslice]
    exact h
  · exact readSource_eq_ok_iff.mpr ⟨hscan, parse_number _ _ _⟩

/-- **A number token is the number nearest to what its text denotes.**  The tokens with texts of
literals are the number tokens, and each has the nearest value with ties to even, which is
infinite exactly from `2 ^ 1024 - 2 ^ 970` on.  Number tokens of equal rationals are equal,
and those of greater rationals are not smaller.  Every literal is a source of one such token,
and the zeros and points that change nothing in its rational change nothing in the number. -/
theorem numbers_nearest [CallStack] (source : String) :
    (∀ tokens, tokenize source = .ok tokens → ∀ t ∈ tokens,
      ((∃ x, t.lexeme = .number x) ↔ ∃ q, Denotes (t.slice source.toList) q)) ∧
    (∀ t x q, NumberAt source t x q →
      Binary64.IsNearest false q x ∧ (x = .inf false ↔ (2 : ℚ) ^ 1024 - 2 ^ 970 ≤ q) ∧
      ∀ other s y r, NumberAt other s y r → (q = r → x = y) ∧ (q ≤ r → x.AtMost y)) ∧
    ∀ q, Denotes source.toList q →
      (∃ x, NumberAt source ⟨.number x, 0, source.length⟩ x q ∧
        readSource source = .ok ([⟨.number x, 0, source.length⟩], .number x)) ∧
      Denotes ('0' :: source.toList) q ∧
      ('.' ∉ source.toList → Denotes (source.toList ++ ['.']) q) ∧
      ('.' ∈ source.toList → Denotes (source.toList ++ ['0']) q) := by
  refine ⟨fun tokens h t ht => isNumber_iff h ht, ?_, ?_⟩
  · intro t x q hx
    have hnearest := isNearest_of_numberAt hx
    refine ⟨hnearest, Binary64.isNearest_inf_iff hnearest, ?_⟩
    intro other s y r hy
    constructor
    · rintro rfl
      exact hnearest.unique (isNearest_of_numberAt hy)
    · exact hnearest.monotone (isNearest_of_numberAt hy)
  · intro q hq
    exact ⟨exists_numberAt hq, denotes_zero_cons hq, denotes_concat_point hq,
      denotes_concat_zero hq⟩

section Unused

attribute [local instance] CallStack.unused

/-- Half way between two numbers the one with the even significand is read. -/
theorem numbers_halfWay :
    NumberAt "9007199254740993" ⟨.number (.finite false ⟨2 ^ 52, 1075, by decide⟩), 0, 16⟩
      (.finite false ⟨2 ^ 52, 1075, by decide⟩) 9007199254740993 ∧
    Binary64.IsNearest false 9007199254740993 (.finite false ⟨2 ^ 52, 1075, by decide⟩) := by
  have hscan : (tokenize "9007199254740993").toOption =
      some [⟨.number (.finite false ⟨2 ^ 52, 1075, by decide⟩), 0, 16⟩] := by decide +kernel
  have hvalue : Nat.ofDigitChars 10 "9007199254740993".toList 0 = 9007199254740993 := by
    decide +kernel
  have hdenotes : Denotes "9007199254740993".toList 9007199254740993 := by
    have hdigits : "9007199254740993".toList.all Char.isDigit = true := by decide +kernel
    have hdenotes := Denotes.digits (by decide) (List.all_eq_true.mp hdigits)
    rw [hvalue] at hdenotes
    exact_mod_cast hdenotes
  have hnumber : NumberAt "9007199254740993"
      ⟨.number (.finite false ⟨2 ^ 52, 1075, by decide⟩), 0, 16⟩
      (.finite false ⟨2 ^ 52, 1075, by decide⟩) 9007199254740993 := by
    cases htokens : tokenize "9007199254740993" with
    | error e =>
      rw [htokens] at hscan
      cases hscan
    | ok tokens =>
      rw [htokens] at hscan
      obtain rfl := Option.some.inj hscan
      exact ⟨⟨_, htokens, List.mem_singleton_self _⟩, rfl, hdenotes⟩
  exact ⟨hnumber, ((numbers_nearest _).2.1 _ _ _ hnumber).1⟩

end Unused

end Calculator
