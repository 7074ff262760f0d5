/-
  Calculator/Proofs/Token/Forms.lean
  ==================================
  **The forms of tokens, and the longest one.**  A text is a token on its own if
  it is a name, digits with at most one point, or the text of a symbol.  Several
  such texts may stand at one place of a source: `1`, `1.` and `1.5`, or `.` and
  `...`, or `<`, `<<` and `<<=`.

  The scanner never compares them.  It reads a name if a name starts there, or
  else a number, or else the first symbol of its table that fits.  The longest
  form is read all the same.  Names and numbers take all the characters that can
  belong to them; a symbol and a name never start alike, and a symbol and a
  number only with a point, which a digit has to follow in the number and cannot
  follow in a longer symbol; and the table lists no symbol before a longer one
  that it starts.
-/
import Calculator.Proofs.Token.Lexemes

namespace Calculator

/-! ### Characters of sources -/

/-- The characters that symbols are made of. -/
def punctuation : List Char := [
  '\x7b', '\x7d', '[', ']', '(', ')', '.', ',', ':', ';', '+', '-', '*', '/', '%', '^', '=',
  '!', '&', '|', '?', '~', '<', '>']

/-- A character that has a meaning in a source. -/
def isSourceChar (c : Char) : Bool := isSeparator c || isNamePart c || punctuation.contains c

/-! ### Forms -/

/-- A text of a number, and the decimal that it denotes. -/
inductive IsNumeral : List Char → Decimal → Prop where
  | digits {whole : List Char} (hne : whole ≠ []) (hwhole : ∀ c ∈ whole, c.isDigit = true) :
      IsNumeral whole (Decimal.ofDigits whole [])
  /-- Digits on both sides of a point, or before it, or after it. -/
  | pointed {whole fraction : List Char} (hne : whole ≠ [] ∨ fraction ≠ [])
      (hwhole : ∀ c ∈ whole, c.isDigit = true) (hfraction : ∀ c ∈ fraction, c.isDigit = true) :
      IsNumeral (whole ++ '.' :: fraction) (Decimal.ofDigits whole fraction)

/-- A text that is a token on its own, and what it says. -/
inductive IsForm : List Char → Lexeme → Prop where
  | name {c : Char} {rest : List Char} (hstart : isNameStart c = true)
      (hrest : ∀ d ∈ rest, isNamePart d = true) :
      IsForm (c :: rest) (.identifier (String.ofList (c :: rest)))
  | numeral {word : List Char} {d : Decimal} (h : IsNumeral word d) :
      IsForm word (.number d.toBinary64)
  | symbol (s : Symbol) : IsForm s.chars (.symbol s)

/-- A form at the front of a text such that no longer form stands there. -/
structure LongestForm (text word : List Char) (x : Lexeme) : Prop where
  starts : word <+: text
  form : IsForm word x
  longest : ∀ other y, other <+: text → IsForm other y → other.length ≤ word.length

/-! ### The table of symbols -/

namespace Symbol

theorem mem_all (s : Symbol) : s ∈ all := by cases s <;> decide

/-- No symbol stands before a longer one that it starts. -/
theorem pairwise_all : all.Pairwise fun s t => s.chars.isPrefixOf t.chars = false := by decide

theorem starts_all : ∀ s ∈ all, ∃ c word, s.chars = c :: word ∧
    isSeparator c = false ∧ isNameStart c = false ∧ c.isDigit = false := by
  intro s _
  cases s <;> exact ⟨_, _, rfl, rfl, rfl, rfl⟩

theorem chars_subset_punctuation (s : Symbol) : s.chars ⊆ punctuation := by
  cases s <;> decide

theorem exists_singleton {c : Char} (h : c ∈ punctuation) : ∃ s ∈ all, s.chars = [c] := by
  have hsymbols : punctuation.map (fun d => [d]) =
      [leftBrace, rightBrace, leftBracket, rightBracket, leftParen, rightParen, dot, comma,
        colon, semicolon, plus, minus, star, slash, percent, caret, assign, bang, amp, pipe,
        question, tilde, less, greater].map chars := rfl
  have hmem : [c] ∈ punctuation.map fun d => [d] := List.mem_map_of_mem h
  rw [hsymbols] at hmem
  obtain ⟨s, -, hs⟩ := List.mem_map.mp hmem
  exact ⟨s, mem_all s, hs⟩

/-- A point before a digit is the whole of every symbol that starts with it. -/
theorem length_of_point {s : Symbol} {d : Char} (hdigit : d.isDigit = true) {rest : List Char}
    (h : s.chars <+: '.' :: d :: rest) : s.chars.length = 1 := by
  have hpoint : '.' ≠ d := by
    rintro rfl
    simp at hdigit
  cases s <;> simp_all [chars, List.cons_prefix_cons]

end Symbol

namespace Lexeme

/-- The first symbol of the table that stands at the front of a text is the longest one. -/
theorem symbol?_of_chars {s : Symbol} {text : List Char} (h : s.chars <+: text) :
    ∃ x n, symbol? text = some (x, n) ∧ s.chars.length ≤ n := by
  have hfits : s.chars.isPrefixOf text = true := List.isPrefixOf_iff_prefix.mpr h
  cases hfind : Symbol.all.find? fun t => t.chars.isPrefixOf text with
  | none =>
    have hnone := List.find?_eq_none.mp hfind s s.mem_all
    exact absurd hfits hnone
  | some t =>
    refine ⟨symbol t, t.chars.length, by rw [symbol?, hfind]; rfl, ?_⟩
    obtain ⟨htfits, before, after, hall, hbefore⟩ := List.find?_eq_some_iff_append.mp hfind
    have hsorted := hall ▸ Symbol.pairwise_all
    have hmem : s ∈ before ++ t :: after := hall ▸ s.mem_all
    rcases List.mem_append.mp hmem with hs | hs
    · -- a symbol before the one that was found does not fit
      have hno := hbefore s hs
      simp [hfits] at hno
    · rcases List.mem_cons.mp hs with rfl | hs
      · exact Nat.le_refl _
      · apply Nat.le_of_not_lt
        intro hlt
        have hstart : t.chars <+: s.chars :=
          List.prefix_of_prefix_length_le (List.isPrefixOf_iff_prefix.mp htfits) h (by omega)
        have hno := List.rel_of_pairwise_cons (List.pairwise_append.mp hsorted).2.1 hs
        rw [List.isPrefixOf_iff_prefix.mpr hstart] at hno
        simp at hno

/-! ### Longest names and numbers -/

theorem length_le_takeWhile {p : Char → Bool} {word text : List Char}
    (hword : ∀ c ∈ word, p c = true) (h : word <+: text) :
    word.length ≤ (text.takeWhile p).length := by
  obtain ⟨rest, rfl⟩ := h
  rw [List.takeWhile_append_of_pos hword, List.length_append]
  exact Nat.le_add_right _ _

theorem identifier?_of_name {c : Char} {word text : List Char} (hstart : isNameStart c = true)
    (hword : ∀ d ∈ word, isNamePart d = true) (h : c :: word <+: text) :
    ∃ x n, identifier? text = some (x, n) ∧ (c :: word).length ≤ n := by
  obtain ⟨rest, rfl⟩ := h
  have hle := length_le_takeWhile hword (List.prefix_append word rest)
  refine ⟨_, _, by rw [List.cons_append, identifier?, if_pos hstart], ?_⟩
  simpa using hle

/-- A number that stands at the front of a text is read to its end at least. -/
theorem number?_of_isNumeral {word text : List Char} {d : Decimal} (hword : IsNumeral word d)
    (h : word <+: text) : ∃ x n, number? text = some (x, n) ∧ word.length ≤ n := by
  cases hword with
  | digits hne hwhole =>
    have hle := length_le_takeWhile hwhole h
    have htaken : text.takeWhile Char.isDigit ≠ [] := by
      intro hnil
      rw [hnil, List.length_nil] at hle
      exact hne (List.length_eq_zero_iff.mp (by omega))
    unfold number?
    dsimp only
    split
    · rw [if_neg (by simp [htaken])]
      exact ⟨_, _, rfl, by omega⟩
    · rw [if_neg htaken]
      exact ⟨_, _, rfl, hle⟩
  | @pointed whole fraction hne hwhole hfraction =>
    obtain ⟨rest, rfl⟩ := h
    have hle := length_le_takeWhile hfraction (List.prefix_append fraction rest)
    have hdot : startsWithout Char.isDigit ('.' :: (fraction ++ rest)) := startsWithout_cons rfl _
    have hsome : ¬(whole = [] ∧ (fraction ++ rest).takeWhile Char.isDigit = []) := by
      rintro ⟨hnil, hnone⟩
      rw [hnone, List.length_nil] at hle
      have hempty : fraction = [] := List.length_eq_zero_iff.mp (by omega)
      simp [hnil, hempty] at hne
    simp only [number?, List.append_assoc, List.cons_append, takeWhile_word hwhole hdot,
      List.drop_left, if_neg hsome]
    refine ⟨_, _, rfl, ?_⟩
    simp only [List.length_append, List.length_cons]
    omega

/-! ### What is read is a form -/

theorem isForm_of_identifier? {text : List Char} {x : Lexeme} {n : Nat}
    (h : identifier? text = some (x, n)) :
    ∃ word, word <+: text ∧ word.length = n ∧ IsForm word x := by
  cases text with
  | nil => simp [identifier?] at h
  | cons c rest =>
    rw [identifier?] at h
    split at h
    · next hstart =>
      simp only [Option.some.injEq, Prod.mk.injEq] at h
      obtain ⟨rfl, rfl⟩ := h
      refine ⟨c :: rest.takeWhile isNamePart, ?_, rfl, .name hstart ?_⟩
      · exact List.cons_prefix_cons.mpr ⟨rfl, List.takeWhile_prefix _⟩
      · exact List.all_eq_true.mp List.all_takeWhile
    · simp at h

theorem isNumeral_of_number? {text : List Char} {x : Lexeme} {n : Nat}
    (h : number? text = some (x, n)) :
    ∃ word d, word <+: text ∧ word.length = n ∧ x = .number d.toBinary64 ∧ IsNumeral word d := by
  have hwhole : ∀ c ∈ text.takeWhile Char.isDigit, c.isDigit = true :=
    List.all_eq_true.mp List.all_takeWhile
  have htext : text.takeWhile Char.isDigit ++ text.drop (text.takeWhile Char.isDigit).length
      = text := List.prefix_iff_eq_append.mp (List.takeWhile_prefix _)
  unfold number? at h
  dsimp only at h
  split at h
  · next rest hrest =>
    split at h
    · simp at h
    · next hsome =>
      simp only [Option.some.injEq, Prod.mk.injEq] at h
      obtain ⟨rfl, rfl⟩ := h
      refine ⟨text.takeWhile Char.isDigit ++ '.' :: rest.takeWhile Char.isDigit, _, ?_, ?_, rfl,
        .pointed (Decidable.not_and_iff_or_not.mp hsome) hwhole
          (List.all_eq_true.mp List.all_takeWhile)⟩
      · have hfraction : '.' :: rest.takeWhile Char.isDigit <+: '.' :: rest :=
          List.cons_prefix_cons.mpr ⟨rfl, List.takeWhile_prefix _⟩
        have hstarts := (List.prefix_append_right_inj (text.takeWhile Char.isDigit)).mpr hfraction
        rwa [← hrest, htext] at hstarts
      · simp only [List.length_append, List.length_cons]
        omega
  · split at h
    · simp at h
    · next hne =>
      simp only [Option.some.injEq, Prod.mk.injEq] at h
      obtain ⟨rfl, rfl⟩ := h
      exact ⟨_, _, List.takeWhile_prefix _, rfl, rfl, .digits hne hwhole⟩

theorem isForm_of_symbol? {text : List Char} {x : Lexeme} {n : Nat}
    (h : symbol? text = some (x, n)) :
    ∃ word, word <+: text ∧ word.length = n ∧ IsForm word x := by
  rw [symbol?, Option.map_eq_some_iff] at h
  obtain ⟨s, hfind, heq⟩ := h
  simp only [Prod.mk.injEq] at heq
  obtain ⟨rfl, rfl⟩ := heq
  have hfits := List.find?_some hfind
  exact ⟨s.chars, List.isPrefixOf_iff_prefix.mp hfits, rfl, .symbol s⟩

/-! ### The longest form is read -/

theorem identifier?_eq_none {c : Char} (h : isNameStart c = false) (rest : List Char) :
    identifier? (c :: rest) = none := by
  rw [identifier?, if_neg (by simp [h])]

theorem exists_cons_of_starts {c : Char} {word text : List Char} (h : c :: word <+: text) :
    ∃ rest, text = c :: rest ∧ word <+: rest := by
  obtain ⟨rest, rfl⟩ := h
  exact ⟨word ++ rest, rfl, List.prefix_append word rest⟩

theorem head_of_isNumeral {word : List Char} {d : Decimal} (h : IsNumeral word d) :
    ∃ c rest, word = c :: rest ∧ (c.isDigit = true ∨
      c = '.' ∧ ∃ e more, rest = e :: more ∧ e.isDigit = true) := by
  cases h with
  | digits hne hwhole =>
    obtain ⟨c, rest, rfl⟩ := List.exists_cons_of_ne_nil hne
    exact ⟨c, rest, rfl, Or.inl (hwhole c List.mem_cons_self)⟩
  | @pointed whole fraction hne hwhole hfraction =>
    cases whole with
    | cons c whole => exact ⟨c, _, rfl, Or.inl (hwhole c List.mem_cons_self)⟩
    | nil =>
      obtain ⟨e, more, rfl⟩ := List.exists_cons_of_ne_nil (hne.resolve_left (by simp))
      exact ⟨'.', _, rfl, Or.inr ⟨rfl, e, more, rfl, hfraction e List.mem_cons_self⟩⟩

/-- A number is read where a symbol stands only if the symbol is a point. -/
theorem length_le_of_number? {s : Symbol} {text : List Char} (hs : s.chars <+: text) {x : Lexeme}
    {n : Nat} (h : number? text = some (x, n)) : s.chars.length ≤ n := by
  obtain ⟨word, d, hword, rfl, -, hnumeral⟩ := isNumeral_of_number? h
  obtain ⟨c, rest, rfl, hdigit | ⟨rfl, e, more, rfl, hdigit⟩⟩ := head_of_isNumeral hnumeral
  · obtain ⟨b, symbol, hchars, -, -, hother⟩ := Symbol.starts_all s s.mem_all
    obtain ⟨tail, rfl, -⟩ := exists_cons_of_starts hword
    rw [hchars, List.cons_prefix_cons] at hs
    simp [hs.1, hdigit] at hother
  · obtain ⟨tail, rfl⟩ := hword
    rw [Symbol.length_of_point hdigit hs]
    simp

/-- Where a form stands, something at least as long is read. -/
theorem exists_read? {word text : List Char} {x : Lexeme} (hform : IsForm word x)
    (h : word <+: text) : ∃ y n, read? text = some (y, n) ∧ word.length ≤ n := by
  cases hform with
  | name hstart hrest =>
    obtain ⟨y, n, hread, hle⟩ := identifier?_of_name hstart hrest h
    exact ⟨y, n, by rw [read?, hread, Option.some_or], hle⟩
  | numeral hnumeral =>
    obtain ⟨y, n, hread, hle⟩ := number?_of_isNumeral hnumeral h
    obtain ⟨c, rest, rfl, hdigit⟩ := head_of_isNumeral hnumeral
    obtain ⟨tail, rfl, -⟩ := exists_cons_of_starts h
    have hname : isNameStart c = false := by
      rcases hdigit with hdigit | ⟨rfl, -⟩
      · exact isNameStart_of_isDigit hdigit
      · rfl
    exact ⟨y, n, by rw [read?, identifier?_eq_none hname, hread]; rfl, hle⟩
  | symbol s =>
    obtain ⟨c, word, hchars, -, hname, -⟩ := Symbol.starts_all s s.mem_all
    obtain ⟨rest, rfl, -⟩ := exists_cons_of_starts (hchars ▸ h)
    rw [read?, identifier?_eq_none hname, Option.none_or]
    cases hnumber : number? (c :: rest) with
    | some found => exact ⟨found.1, found.2, rfl, length_le_of_number? h hnumber⟩
    | none =>
      obtain ⟨y, n, hread, hle⟩ := symbol?_of_chars h
      exact ⟨y, n, by rw [hread, Option.none_or], hle⟩

theorem isForm_of_read? {text : List Char} {x : Lexeme} {n : Nat} (h : read? text = some (x, n)) :
    ∃ word, word <+: text ∧ word.length = n ∧ IsForm word x := by
  rw [read?, Option.or_eq_some_iff] at h
  rcases h with h | ⟨-, h⟩
  · exact isForm_of_identifier? h
  · rw [Option.or_eq_some_iff] at h
    rcases h with h | ⟨-, h⟩
    · obtain ⟨word, d, hword, hlength, rfl, hnumeral⟩ := isNumeral_of_number? h
      exact ⟨word, hword, hlength, .numeral hnumeral⟩
    · exact isForm_of_symbol? h

/-- What is read at the front of a text is the longest form there. -/
theorem longestForm_of_read? {text : List Char} {x : Lexeme} {n : Nat}
    (h : read? text = some (x, n)) : ∃ word, word.length = n ∧ LongestForm text word x := by
  obtain ⟨word, hword, hlength, hform⟩ := isForm_of_read? h
  refine ⟨word, hlength, hword, hform, ?_⟩
  intro other y hother hotherForm
  obtain ⟨z, m, hread, hle⟩ := exists_read? hotherForm hother
  rw [h, Option.some.injEq, Prod.mk.injEq] at hread
  rw [hlength, hread.2]
  exact hle

/-! ### Characters that start no token -/

theorem isSourceChar_of_isNamePart {c : Char} (h : isNamePart c = true) :
    isSourceChar c = true := by
  simp [isSourceChar, h]

theorem isSourceChar_of_mem_punctuation {c : Char} (h : c ∈ punctuation) :
    isSourceChar c = true := by
  simp [isSourceChar, h]

theorem isNamePart_iff {c : Char} :
    isNamePart c = true ↔ isNameStart c = true ∨ c.isDigit = true := by
  simp only [isNamePart, isNameStart, Char.isAlphanum, Bool.or_eq_true]
  exact or_right_comm

theorem isSourceChar_of_isDigit {c : Char} (h : c.isDigit = true) : isSourceChar c = true :=
  isSourceChar_of_isNamePart (isNamePart_iff.mpr (Or.inr h))

theorem isSourceChar_of_isForm {word : List Char} {x : Lexeme} (h : IsForm word x) {c : Char}
    (hc : c ∈ word) : isSourceChar c = true := by
  cases h with
  | name hstart hrest =>
    rcases List.mem_cons.mp hc with rfl | hc
    · exact isSourceChar_of_isNamePart (isNamePart_iff.mpr (Or.inl hstart))
    · exact isSourceChar_of_isNamePart (hrest c hc)
  | symbol s => exact isSourceChar_of_mem_punctuation (s.chars_subset_punctuation hc)
  | numeral hnumeral =>
    cases hnumeral with
    | digits hne hwhole => exact isSourceChar_of_isDigit (hwhole c hc)
    | pointed hne hwhole hfraction =>
      rcases List.mem_append.mp hc with hc | hc
      · exact isSourceChar_of_isDigit (hwhole c hc)
      · rcases List.mem_cons.mp hc with rfl | hc
        · rfl
        · exact isSourceChar_of_isDigit (hfraction c hc)

theorem ne_nil_of_isForm {word : List Char} {x : Lexeme} (h : IsForm word x) : word ≠ [] := by
  cases h with
  | name => simp
  | numeral hnumeral =>
    obtain ⟨c, rest, rfl, -⟩ := head_of_isNumeral hnumeral
    simp
  | symbol s =>
    obtain ⟨c, rest, hchars, -⟩ := Symbol.starts_all s s.mem_all
    simp [hchars]

/-- Every character with a meaning, if it is no separator, is a token on its own. -/
theorem exists_isForm {c : Char} (hsep : isSeparator c = false) (h : isSourceChar c = true) :
    ∃ x, IsForm [c] x := by
  simp only [isSourceChar, hsep, Bool.false_or, Bool.or_eq_true, List.contains_iff_mem] at h
  rcases h with h | h
  · rcases isNamePart_iff.mp h with hstart | hdigit
    · exact ⟨_, .name hstart (by simp)⟩
    · exact ⟨_, .numeral (.digits (by simp) (by simpa using hdigit))⟩
  · obtain ⟨s, -, hchars⟩ := Symbol.exists_singleton h
    exact ⟨.symbol s, hchars ▸ .symbol s⟩

theorem read?_eq_none_iff {c : Char} {rest : List Char} (hsep : isSeparator c = false) :
    read? (c :: rest) = none ↔ isSourceChar c = false := by
  constructor
  · intro hnone
    cases hc : isSourceChar c with
    | false => rfl
    | true =>
      obtain ⟨x, hform⟩ := exists_isForm hsep hc
      obtain ⟨y, n, hread, -⟩ := exists_read? hform (List.prefix_append [c] rest)
      rw [List.singleton_append, hnone] at hread
      simp at hread
  · intro hc
    cases hread : read? (c :: rest) with
    | none => rfl
    | some found =>
      obtain ⟨word, hword, -, hform⟩ := isForm_of_read? hread
      obtain ⟨d, word, rfl⟩ := List.exists_cons_of_ne_nil (ne_nil_of_isForm hform)
      have hd := isSourceChar_of_isForm hform List.mem_cons_self
      rw [(List.cons_prefix_cons.mp hword).1, hc] at hd
      simp at hd

end Lexeme

end Calculator
