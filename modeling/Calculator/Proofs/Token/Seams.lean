/-
  Calculator/Proofs/Token/Seams.lean
  ==================================
  **Cutting a text where no token can go on.**  A separator, a parenthesis and a
  comma belong to no token except one that they start.  So a token that starts
  before such a character ends before it, whatever comes after, and a scan of the
  whole text is the scan of the part in front and then the scan of the rest.

  A part that is scanned on its own therefore keeps its tokens wherever such a
  character comes next, and texts can be joined around parentheses and commas
  without any space.
-/
import Calculator.Proofs.Token.Forms

namespace Calculator

/-- A character that no token goes on with. -/
def isBoundary (c : Char) : Bool := isSeparator c || c = '(' || c = ')' || c = ','

theorem isBoundary_cases {c : Char} (h : isBoundary c = true) :
    c = ' ' ∨ c = '\n' ∨ c = '(' ∨ c = ')' ∨ c = ',' := by
  simp only [isBoundary, isSeparator, Bool.or_eq_true, decide_eq_true_eq] at h
  rcases h with (((hspace | hline) | hopen) | hclose) | hcomma
  · exact Or.inl hspace
  · exact Or.inr (Or.inl hline)
  · exact Or.inr (Or.inr (Or.inl hopen))
  · exact Or.inr (Or.inr (Or.inr (Or.inl hclose)))
  · exact Or.inr (Or.inr (Or.inr (Or.inr hcomma)))

theorem isNumberPart_of_isBoundary {c : Char} (h : isBoundary c = true) :
    isNumberPart c = false := by
  rcases isBoundary_cases h with rfl | rfl | rfl | rfl | rfl <;> rfl

theorem isNamePart_of_isBoundary {c : Char} (h : isBoundary c = true) : isNamePart c = false := by
  rcases isBoundary_cases h with rfl | rfl | rfl | rfl | rfl <;> rfl

/-- Of the characters of a symbol only the first can be a parenthesis or a comma. -/
theorem not_mem_tail_chars {c : Char} (h : isBoundary c = true) (s : Symbol) :
    c ∉ s.chars.tail := by
  rcases isBoundary_cases h with rfl | rfl | rfl | rfl | rfl <;> cases s <;> decide

section Boundary

variable {c : Char} (hc : isBoundary c = true)

/-! ### One token -/

theorem takeWhile_before {p : Char → Bool} (hp : p c = false) (text rest : List Char) :
    (text ++ c :: rest).takeWhile p = text.takeWhile p := by
  induction text with
  | nil => simp [hp]
  | cons d text ih =>
    rw [List.cons_append, List.takeWhile_cons, List.takeWhile_cons, ih]

/-- A word without a character stands before it or nowhere. -/
theorem isPrefixOf_before {word : List Char} (hword : c ∉ word) (text rest : List Char) :
    word.isPrefixOf (text ++ c :: rest) = word.isPrefixOf text := by
  induction text generalizing word with
  | nil =>
    cases word with
    | nil => rfl
    | cons d word =>
      have hne : d ≠ c := fun heq => hword (heq ▸ List.mem_cons_self)
      simp [List.isPrefixOf, hne]
  | cons d text ih =>
    cases word with
    | nil => rfl
    | cons e word =>
      have htail : c ∉ word := fun hmem => hword (List.mem_cons_of_mem e hmem)
      simp only [List.cons_append, List.isPrefixOf, ih htail]

include hc

namespace Lexeme

theorem identifier?_before {text : List Char} (hne : text ≠ []) (rest : List Char) :
    identifier? (text ++ c :: rest) = identifier? text := by
  obtain ⟨d, text, rfl⟩ := List.exists_cons_of_ne_nil hne
  simp only [List.cons_append, identifier?, takeWhile_before (isNamePart_of_isBoundary hc)]

theorem number?_before {text : List Char} (rest : List Char) :
    number? (text ++ c :: rest) = number? text := by
  have hpart := isNumberPart_of_isBoundary hc
  simp only [isNumberPart, Bool.or_eq_false_iff, decide_eq_false_iff_not] at hpart
  obtain ⟨hdigit, hpoint⟩ := hpart
  have hle : (text.takeWhile Char.isDigit).length ≤ text.length :=
    (List.takeWhile_prefix Char.isDigit).length_le
  simp only [number?, takeWhile_before hdigit, List.drop_append_of_le_length hle]
  cases text.drop (text.takeWhile Char.isDigit).length with
  | nil =>
    -- the digits end where the boundary stands
    rw [List.nil_append]
    split
    · next heq => exact absurd (List.cons.inj heq).1 hpoint
    · rfl
  | cons d after =>
    rw [List.cons_append]
    by_cases hd : d = '.'
    · subst hd
      simp only [takeWhile_before hdigit]
    · simp [hd]

theorem symbol?_before {text : List Char} (hne : text ≠ []) (rest : List Char) :
    symbol? (text ++ c :: rest) = symbol? text := by
  obtain ⟨d, text, rfl⟩ := List.exists_cons_of_ne_nil hne
  have hsame : ∀ s : Symbol,
      s.chars.isPrefixOf (d :: text ++ c :: rest) = s.chars.isPrefixOf (d :: text) := by
    intro s
    have htail := not_mem_tail_chars hc s
    obtain ⟨e, word, hchars, -⟩ := Symbol.starts_all s s.mem_all
    rw [hchars, List.tail_cons] at htail
    simp only [hchars, List.cons_append, List.isPrefixOf, isPrefixOf_before htail]
  simp only [symbol?, hsame]

/-- A lexeme that starts before a boundary is read as if the text ended there. -/
theorem read?_before {text : List Char} (hne : text ≠ []) (rest : List Char) :
    read? (text ++ c :: rest) = read? text := by
  rw [read?, read?, identifier?_before hc hne, number?_before hc, symbol?_before hc hne]

end Lexeme

/-! ### Scans -/

/-- A scan up to a boundary, and then the scan from the boundary on. -/
theorem tokensFrom_before (offset skip : Nat) (text rest : List Char)
    (hskip : skip ≤ text.length) :
    tokensFrom offset skip (text ++ c :: rest) =
      (tokensFrom offset skip text).bind fun tokens =>
        (tokensFrom (offset + text.length) 0 (c :: rest)).map (tokens ++ ·) := by
  induction text generalizing offset skip with
  | nil =>
    obtain rfl : skip = 0 := Nat.le_zero.mp hskip
    cases hscan : tokensFrom offset 0 (c :: rest) <;>
      simp [tokensFrom, Except.bind, Except.map, hscan]
  | cons d text ih =>
    have hplace : offset + 1 + text.length = offset + (d :: text).length := by
      rw [List.length_cons]
      omega
    have hnext := ih (offset + 1)
    rw [hplace] at hnext
    generalize tokensFrom (offset + (d :: text).length) 0 (c :: rest) = others at hnext ⊢
    cases skip with
    | succ skip =>
      rw [List.cons_append, tokensFrom, tokensFrom, hnext _ (Nat.le_of_succ_le_succ hskip)]
    | zero =>
      cases hsep : isSeparator d with
      | true =>
        rw [List.cons_append, tokensFrom, tokensFrom, if_pos hsep, if_pos hsep,
          hnext _ (Nat.zero_le _)]
      | false =>
        have hread := Lexeme.read?_before hc (List.cons_ne_nil d text) rest
        rw [List.cons_append] at hread
        simp only [List.cons_append, tokensFrom, hsep, Bool.false_eq_true, if_false, hread]
        cases hfound : Lexeme.read? (d :: text) with
        | none => rfl
        | some found =>
          obtain ⟨x, length⟩ := found
          obtain ⟨word, hword, rfl, -⟩ := Lexeme.isForm_of_read? hfound
          have hle : word.length - 1 ≤ text.length := by
            have hlength := hword.length_le
            rw [List.length_cons] at hlength
            omega
          simp only [hnext _ hle]
          cases tokensFrom (offset + 1) (word.length - 1) text with
          | error why => rfl
          | ok tokens => cases others <;> rfl

theorem lexemes?_before (text rest : List Char) :
    lexemes? (text ++ c :: rest) =
      (lexemes? text).bind fun xs => (lexemes? (c :: rest)).map (xs ++ ·) := by
  have hrest : scanned (tokensFrom (0 + text.length) 0 (c :: rest)) = lexemes? (c :: rest) :=
    scanned_offset _ _ _
  rw [lexemes?, tokensFrom_before hc 0 0 text rest (Nat.zero_le _), ← hrest, lexemes?]
  cases tokensFrom 0 0 text with
  | error why => rfl
  | ok tokens =>
    cases tokensFrom (0 + text.length) 0 (c :: rest) with
    | error why => rfl
    | ok others => simp [scanned, Except.bind, Except.map]

end Boundary

end Calculator
