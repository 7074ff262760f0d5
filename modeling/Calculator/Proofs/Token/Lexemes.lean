/-
  Calculator/Proofs/Token/Lexemes.lean
  ====================================
  **The lexemes of a text**, without their places.  What a text says does not
  depend on where it stands, so a scan can be taken apart at every lexeme: a
  text that starts with a lexeme says this lexeme and then what the rest of the
  text says.

  The scanner always takes the longest lexeme of its kind, so a word is read as
  it was written only if the text after it does not go on with it.  A name must
  not be followed by another character of a name, a number by another digit or
  point, and a minus by a character that makes a longer symbol of it.
-/
import Calculator.Proofs.Number.ReadBack
import Calculator.Token.Scan

namespace Calculator

/-! ### Scans without places -/

/-- The lexemes that a scan has found. -/
def scanned : Except InvalidToken (List Token) → Option (List Lexeme)
  | .ok tokens => some (tokens.map Token.lexeme)
  | .error _ => none

/-- The lexemes of a text, if each of its characters belongs to one. -/
def lexemes? (text : List Char) : Option (List Lexeme) := scanned (tokensFrom 0 0 text)

theorem scanned_token (scan : Except InvalidToken (List Token)) (lexeme : Lexeme)
    (start stop : Nat) :
    scanned (match scan with
      | .ok tokens => .ok (⟨lexeme, start, stop⟩ :: tokens)
      | .error e => .error e) = (scanned scan).map (lexeme :: ·) := by
  cases scan <;> rfl

/-- The same token so many characters later. -/
def Token.shift (count : Nat) (t : Token) : Token := ⟨t.lexeme, t.start + count, t.stop + count⟩

/-- The same character so many characters later. -/
def InvalidToken.shift (count : Nat) (e : InvalidToken) : InvalidToken :=
  ⟨e.offset + count, e.char⟩

/-- The result of the same scan so many characters later. -/
def shiftScan (count : Nat) : Except InvalidToken (List Token) → Except InvalidToken (List Token)
  | .ok tokens => .ok (tokens.map (Token.shift count))
  | .error e => .error (e.shift count)

/-- What a scan finds does not depend on where the text stands. -/
theorem tokensFrom_shift (count offset skip : Nat) (text : List Char) :
    tokensFrom (offset + count) skip text = shiftScan count (tokensFrom offset skip text) := by
  induction text generalizing offset skip with
  | nil => rfl
  | cons c rest ih =>
    cases skip with
    | succ skip =>
      rw [tokensFrom, tokensFrom, Nat.add_right_comm, ih]
    | zero =>
      simp only [tokensFrom, Nat.add_right_comm offset count 1, ih]
      by_cases hsep : isSeparator c = true
      · rw [if_pos hsep, if_pos hsep]
      · rw [if_neg hsep, if_neg hsep]
        cases Lexeme.read? (c :: rest) with
        | none => rfl
        | some found =>
          obtain ⟨lexeme, length⟩ := found
          dsimp only
          cases tokensFrom (offset + 1) (length - 1) rest with
          | error e => rfl
          | ok tokens => simp [shiftScan, Token.shift, Nat.add_right_comm]

theorem scanned_shiftScan (count : Nat) (scan : Except InvalidToken (List Token)) :
    scanned (shiftScan count scan) = scanned scan := by
  cases scan with
  | error e => rfl
  | ok tokens => simp [shiftScan, scanned, Token.shift, Function.comp_def]

/-- The offset of a text shows in the places of its tokens only. -/
theorem scanned_offset (offset skip : Nat) (text : List Char) :
    scanned (tokensFrom offset skip text) = scanned (tokensFrom 0 skip text) := by
  rw [← Nat.zero_add offset, tokensFrom_shift, scanned_shiftScan]

@[simp] theorem lexemes?_nil : lexemes? [] = some [] := rfl

theorem lexemes?_separator {c : Char} (h : isSeparator c = true) (rest : List Char) :
    lexemes? (c :: rest) = lexemes? rest := by
  rw [lexemes?, tokensFrom, if_pos h, scanned_offset]
  rfl

/-- A text that starts with a lexeme says this lexeme and then what the rest says. -/
theorem lexemes?_read {c : Char} {word rest : List Char} {lexeme : Lexeme}
    (hsep : isSeparator c = false)
    (hread : Lexeme.read? (c :: word ++ rest) = some (lexeme, word.length + 1)) :
    lexemes? (c :: word ++ rest) = (lexemes? rest).map (lexeme :: ·) := by
  have hdrop : scanned (tokensFrom (0 + 1) word.length (word ++ rest)) = lexemes? rest := by
    rw [tokensFrom_skip, scanned_offset, List.drop_left]
    rfl
  rw [List.cons_append] at hread ⊢
  rw [← hdrop, lexemes?, tokensFrom, if_neg (by simp [hsep]), hread]
  exact scanned_token _ _ _ _

theorem tokenize_of_lexemes? {source : String} {lexemes : List Lexeme}
    (h : lexemes? source.toList = some lexemes) :
    ∃ tokens, tokenize source = .ok tokens ∧ tokens.map Token.lexeme = lexemes := by
  rw [lexemes?] at h
  cases hscan : tokensFrom 0 0 source.toList with
  | error e => simp [hscan, scanned] at h
  | ok tokens =>
    rw [hscan] at h
    exact ⟨tokens, hscan, Option.some.inj h⟩

/-! ### Words -/

/-- A text that does not start with a character of a kind. -/
def startsWithout (p : Char → Bool) (text : List Char) : Prop := ∀ c ∈ text.head?, p c = false

theorem startsWithout_cons {p : Char → Bool} {c : Char} (h : p c = false) (rest : List Char) :
    startsWithout p (c :: rest) := by
  intro d hd
  simp only [List.head?_cons, Option.mem_some_iff] at hd
  exact hd ▸ h

theorem startsWithout_of_imp {p q : Char → Bool} (hpq : ∀ c, p c = true → q c = true)
    {text : List Char} (h : startsWithout q text) : startsWithout p text := by
  intro c hc
  cases hp : p c with
  | false => rfl
  | true => exact absurd (hpq c hp) (by simp [h c hc])

/-- A word of one kind is taken whole from a text that does not go on with it. -/
theorem takeWhile_word {p : Char → Bool} {word rest : List Char} (hword : ∀ c ∈ word, p c = true)
    (hrest : startsWithout p rest) : (word ++ rest).takeWhile p = word := by
  rw [List.takeWhile_append_of_pos hword]
  cases rest with
  | nil => simp
  | cons c rest =>
    have hc : p c = false := hrest c (by simp)
    simp [hc]

/-- A character of a kind without separators is no separator. -/
theorem isSeparator_eq_false {p : Char → Bool} (hspace : p ' ' = false) (hline : p '\n' = false)
    {c : Char} (h : p c = true) : isSeparator c = false := by
  cases hsep : isSeparator c with
  | false => rfl
  | true =>
    simp only [isSeparator, Bool.or_eq_true, decide_eq_true_eq] at hsep
    rcases hsep with rfl | rfl
    · exact absurd h (by simp [hspace])
    · exact absurd h (by simp [hline])

/-! ### Names -/

/-- Whether a text is a name: a letter or an underscore, and then letters, digits and
underscores. -/
def isName (name : String) : Bool :=
  match name.toList with
  | [] => false
  | c :: rest => isNameStart c && rest.all isNamePart

/-- A name is one lexeme of a text that does not go on with it. -/
theorem lexemes?_name {name : String} (hname : isName name = true) {rest : List Char}
    (hrest : startsWithout isNamePart rest) :
    lexemes? (name.toList ++ rest) = (lexemes? rest).map (.identifier name :: ·) := by
  rw [isName] at hname
  cases htext : name.toList with
  | nil => simp [htext] at hname
  | cons c word =>
    simp only [htext, Bool.and_eq_true, List.all_eq_true] at hname
    obtain ⟨hstart, hword⟩ := hname
    have hsame : String.ofList (c :: word) = name := by rw [← htext, String.ofList_toList]
    refine lexemes?_read (isSeparator_eq_false rfl rfl hstart) ?_
    simp only [Lexeme.read?, List.cons_append, Lexeme.identifier?, if_pos hstart,
      takeWhile_word hword hrest, hsame]
    rfl

theorem isName_of_read? {text : List Char} {name : String} {length : Nat}
    (h : Lexeme.read? text = some (.identifier name, length)) : isName name = true := by
  rw [Lexeme.read?, Option.or_eq_some_iff] at h
  rcases h with h | ⟨-, h⟩
  · cases text with
    | nil => simp [Lexeme.identifier?] at h
    | cons c rest =>
      rw [Lexeme.identifier?] at h
      split at h
      · next hstart =>
        simp only [Option.some.injEq, Prod.mk.injEq, Lexeme.identifier.injEq] at h
        have hall : (rest.takeWhile isNamePart).all isNamePart = true := by simp
        rw [isName, ← h.1, String.toList_ofList]
        simp [hstart, hall]
      · simp at h
  · rw [Option.or_eq_some_iff] at h
    rcases h with h | ⟨-, h⟩
    · unfold Lexeme.number? at h
      simp only at h
      split at h <;> split at h <;> simp at h
    · simp [Lexeme.symbol?] at h

theorem isName_of_mem_tokensFrom {offset skip : Nat} {text : List Char} {tokens : List Token}
    (h : tokensFrom offset skip text = .ok tokens) {name : String}
    (hmem : .identifier name ∈ tokens.map Token.lexeme) : isName name = true := by
  induction text generalizing offset skip tokens with
  | nil =>
    simp only [tokensFrom, Except.ok.injEq] at h
    simp [← h] at hmem
  | cons c rest ih =>
    unfold tokensFrom at h
    split at h
    · exact ih h hmem
    · split at h
      · exact ih h hmem
      · split at h
        · simp at h
        · next lexeme length hread =>
          split at h
          · next tail htail =>
            rw [← Except.ok.inj h, List.map_cons, List.mem_cons] at hmem
            rcases hmem with rfl | hmem
            · exact isName_of_read? hread
            · exact ih htail hmem
          · simp at h

/-! ### Numbers -/

/-- A character that would go on with a number. -/
def isNumberPart (c : Char) : Bool := c.isDigit || c = '.'

theorem isNameStart_of_isDigit {c : Char} (h : c.isDigit = true) : isNameStart c = false := by
  have hunderscore : c ≠ '_' := by
    rintro rfl
    simp at h
  have halpha : c.isAlpha = false := by
    obtain ⟨-, hnine⟩ := Char.isDigit_iff_toNat.mp h
    have hlt : ∀ d : Char, '9'.toNat < d.toNat → ¬d.val ≤ c.val := by
      intro d hd hle
      exact Nat.not_le.mpr (Nat.lt_of_le_of_lt hnine hd) (UInt32.le_iff_toNat_le.mp hle)
    have hupper : c.isUpper = false := decide_eq_false fun hle => hlt 'A' (by decide) hle.1
    have hlower : (decide ('a'.val ≤ c.val) && decide (c.val ≤ 'z'.val)) = false := by
      rw [decide_eq_false (hlt 'a' (by decide)), Bool.false_and]
    exact Bool.or_eq_false_iff.mpr ⟨hupper, hlower⟩
  simp [isNameStart, halpha, hunderscore]

theorem number?_pointed {whole fraction rest : List Char} (hne : whole ≠ [])
    (hwhole : ∀ c ∈ whole, c.isDigit = true) (hfraction : ∀ c ∈ fraction, c.isDigit = true)
    (hrest : startsWithout isNumberPart rest) :
    Lexeme.number? (pointed whole fraction ++ rest) =
      some (.number (Decimal.ofDigits whole fraction).toBinary64,
        (pointed whole fraction).length) := by
  have hdigit : startsWithout Char.isDigit rest := by
    refine startsWithout_of_imp ?_ hrest
    intro c hc
    simp [isNumberPart, hc]
  rw [pointed]
  split
  · next hnil =>
    subst hnil
    simp only [Lexeme.number?, takeWhile_word hwhole hdigit, List.drop_left, if_neg hne]
    split
    · next tail =>
      have hpoint := hrest '.' (by simp)
      simp [isNumberPart] at hpoint
    · rfl
  · next hpoint =>
    have hdot : startsWithout Char.isDigit ('.' :: (fraction ++ rest)) :=
      startsWithout_cons rfl _
    simp only [Lexeme.number?, List.append_assoc, List.cons_append,
      takeWhile_word hwhole hdot, List.drop_left, takeWhile_word hfraction hdigit, hne,
      false_and, if_false, List.length_append, List.length_cons]
    congr 2
    omega

/-- The text of a magnitude is one lexeme of a text that does not go on with it. -/
theorem lexemes?_number {text rest : List Char} {m : Magnitude} (htext : Writes text (some m))
    (hrest : startsWithout isNumberPart rest) :
    lexemes? (text ++ rest) = (lexemes? rest).map (.number (.finite false m) :: ·) := by
  obtain ⟨c, word, hword, hdigit⟩ := htext.starts
  obtain ⟨whole, fraction, rfl, hne, hwhole, hfraction, hvalue⟩ := htext
  have hread := number?_pointed hne hwhole hfraction hrest
  rw [Decimal.toBinary64, hvalue, hword] at hread
  rw [hword]
  refine lexemes?_read (isSeparator_eq_false rfl rfl hdigit) ?_
  rw [Lexeme.read?, hread, List.cons_append, Lexeme.identifier?,
    if_neg (by simp [isNameStart_of_isDigit hdigit])]
  rfl

/-! ### Symbols -/

theorem number?_eq_none {c : Char} (h : isNumberPart c = false) (rest : List Char) :
    Lexeme.number? (c :: rest) = none := by
  simp only [isNumberPart, Bool.or_eq_false_iff, decide_eq_false_iff_not] at h
  have hwhole : (c :: rest).takeWhile Char.isDigit = [] := by simp [h.1]
  simp only [Lexeme.number?, hwhole, List.length_nil, List.drop_zero]
  split
  · next heq => exact absurd (List.cons.inj heq).1 h.2
  · rfl

/-- A symbol is one lexeme of a text if it is the first symbol that stands there. -/
theorem lexemes?_symbol (s : Symbol) (c : Char) (word : List Char) {rest : List Char}
    (hchars : s.chars = c :: word) (hsep : isSeparator c = false)
    (hname : isNameStart c = false) (hnumber : isNumberPart c = false)
    (hfirst : Symbol.all.find? (fun x => x.chars.isPrefixOf (c :: (word ++ rest))) = some s) :
    lexemes? (c :: (word ++ rest)) = (lexemes? rest).map (.symbol s :: ·) := by
  refine lexemes?_read hsep ?_
  rw [Lexeme.read?, List.cons_append, Lexeme.identifier?, if_neg (by simp [hname]),
    number?_eq_none hnumber, Lexeme.symbol?, hfirst]
  simp [hchars]

theorem lexemes?_leftParen (rest : List Char) :
    lexemes? ('(' :: rest) = (lexemes? rest).map (.symbol .leftParen :: ·) :=
  lexemes?_symbol .leftParen '(' [] rfl rfl rfl rfl rfl

theorem lexemes?_rightParen (rest : List Char) :
    lexemes? (')' :: rest) = (lexemes? rest).map (.symbol .rightParen :: ·) :=
  lexemes?_symbol .rightParen ')' [] rfl rfl rfl rfl rfl

theorem lexemes?_comma (rest : List Char) :
    lexemes? (',' :: rest) = (lexemes? rest).map (.symbol .comma :: ·) :=
  lexemes?_symbol .comma ',' [] rfl rfl rfl rfl rfl

/-- A minus is read as a minus where no longer symbol starts. -/
theorem lexemes?_minus {rest : List Char}
    (hrest : startsWithout (fun c => c = '-' || c = '=' || c = '>') rest) :
    lexemes? ('-' :: rest) = (lexemes? rest).map (.symbol .minus :: ·) := by
  refine lexemes?_symbol .minus '-' [] rfl rfl rfl rfl ?_
  cases rest with
  | nil => rfl
  | cons c rest =>
    have hc := hrest c (by simp)
    simp only [Bool.or_eq_false_iff, decide_eq_false_iff_not] at hc
    obtain ⟨⟨hminus, hequal⟩, hgreater⟩ := hc
    simp [Symbol.all, Symbol.chars, List.isPrefixOf, Ne.symm hminus, Ne.symm hequal,
      Ne.symm hgreater]

theorem lexemes?_spaced {s : Symbol} (hdot : s ≠ .dot) (hellipsis : s ≠ .ellipsis)
    (rest : List Char) :
    lexemes? (s.chars ++ ' ' :: rest) = (lexemes? rest).map (.symbol s :: ·) := by
  rw [← lexemes?_separator (c := ' ') rfl rest]
  cases s with
  | dot => exact absurd rfl hdot
  | ellipsis => exact absurd rfl hellipsis
  | _ => exact lexemes?_symbol _ _ _ rfl rfl rfl rfl rfl

end Calculator
