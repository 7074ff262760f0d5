/-
  Calculator/Proofs/Token/Layout.lean
  ===================================
  **Separators only separate.**  No token reaches across a space or a line feed,
  so a text with separators between two parts has the tokens of its first part
  and then those of its second part, as far along as the second part stands.
  The first part fails as it fails alone, and otherwise the second part does.

  So the kinds and values of the tokens are decided by the *chunks* of the text,
  the longest pieces of it without separators, one after the other.  Texts with
  the same chunks differ in places only, however many separators there are and
  wherever the lines end, and the words of a command line, joined with single
  spaces, say what the text says that was split into them.
-/
import Calculator.Proofs.Number.Literals
import Calculator.Proofs.Token.Seams

namespace Calculator

/-! ### Separators between two texts -/

theorem isBoundary_of_isSeparator {c : Char} (h : isSeparator c = true) : isBoundary c = true := by
  simp [isBoundary, h]

/-- Separators in front of a text are passed over. -/
theorem tokensFrom_separators {w : List Char} (hw : ∀ c ∈ w, isSeparator c = true)
    (offset : Nat) (rest : List Char) :
    tokensFrom offset 0 (w ++ rest) = tokensFrom (offset + w.length) 0 rest := by
  induction w generalizing offset with
  | nil => rfl
  | cons c w ih =>
    have hc : isSeparator c = true := hw c List.mem_cons_self
    rw [List.cons_append, tokensFrom, if_pos hc,
      ih fun d hd => hw d (List.mem_cons_of_mem c hd), List.length_cons, Nat.add_assoc,
      Nat.add_comm 1]

/-- Separators between two texts leave the tokens of both as they are. -/
theorem tokensFrom_around {w : List Char} (hne : w ≠ []) (hw : ∀ c ∈ w, isSeparator c = true)
    (a b : List Char) :
    tokensFrom 0 0 (a ++ w ++ b) = do
      let before ← tokensFrom 0 0 a
      let after ← shiftScan (a.length + w.length) (tokensFrom 0 0 b)
      return before ++ after := by
  obtain ⟨c, w, rfl⟩ := List.exists_cons_of_ne_nil hne
  have hc : isBoundary c = true := isBoundary_of_isSeparator (hw c List.mem_cons_self)
  have hseparators := tokensFrom_separators hw (0 + a.length) b
  rw [Nat.zero_add, ← Nat.zero_add (a.length + (c :: w).length), tokensFrom_shift] at hseparators
  have hcut := tokensFrom_before hc 0 0 a (w ++ b) (Nat.zero_le _)
  rw [← List.cons_append, ← List.append_assoc, Nat.zero_add, hseparators] at hcut
  rw [hcut]
  cases tokensFrom 0 0 a with
  | error e => rfl
  | ok before =>
    cases shiftScan (a.length + (c :: w).length) (tokensFrom 0 0 b) with
    | error e => rfl
    | ok after => rfl

/-! ### What a text says -/

/-- What a scan has found, without places: the kinds and values of the tokens, or the character
that starts none. -/
def unplaced : Except InvalidToken (List Token) → Except Char (List Lexeme)
  | .ok tokens => .ok (tokens.map Token.lexeme)
  | .error e => .error e.char

theorem unplaced_shiftScan (count : Nat) (scan : Except InvalidToken (List Token)) :
    unplaced (shiftScan count scan) = unplaced scan := by
  cases scan with
  | error e => rfl
  | ok tokens => simp [shiftScan, unplaced, Token.shift, Function.comp_def]

def content (text : List Char) : Except Char (List Lexeme) := unplaced (tokensFrom 0 0 text)

@[simp] theorem content_nil : content [] = .ok [] := rfl

theorem content_around {c : Char} (hc : isSeparator c = true) (x y : List Char) :
    content (x ++ c :: y) = do
      let xs ← content x
      let ys ← content y
      return xs ++ ys := by
  have hscan := @tokensFrom_around [c] (by simp) (by simpa using hc) x y
  rw [List.append_assoc, List.singleton_append] at hscan
  rw [content, hscan, content, content,
    ← unplaced_shiftScan (x.length + [c].length) (tokensFrom 0 0 y)]
  cases tokensFrom 0 0 x with
  | error e => rfl
  | ok before =>
    cases shiftScan (x.length + [c].length) (tokensFrom 0 0 y) with
    | error e => rfl
    | ok after => simp [unplaced, bind, Except.bind, pure, Except.pure]

/-! ### Chunks -/

/-- The longest pieces of a text without separators. -/
def chunks (text : List Char) : List (List Char) :=
  (text.splitOnP isSeparator).filter fun chunk => !chunk.isEmpty

@[simp] theorem chunks_nil : chunks [] = [] := by
  simp [chunks, List.splitOnP_nil]

theorem chunks_around {c : Char} (hc : isSeparator c = true) (x y : List Char) :
    chunks (x ++ c :: y) = chunks x ++ chunks y := by
  rw [chunks, List.splitOnP_append_cons x y hc, List.filter_append]
  rfl

/-- A text without separators is its only chunk. -/
theorem chunks_of_solid {text : List Char} (hne : text ≠ [])
    (h : ∀ c ∈ text, isSeparator c = false) : chunks text = [text] := by
  rw [chunks, List.splitOnP_eq_singleton h]
  simpa using hne

/-- What texts say one after the other. -/
def contents : List (List Char) → Except Char (List Lexeme)
  | [] => .ok []
  | text :: rest => do
    let xs ← content text
    let ys ← contents rest
    return xs ++ ys

theorem contents_append (texts others : List (List Char)) :
    contents (texts ++ others) = do
      let xs ← contents texts
      let ys ← contents others
      return xs ++ ys := by
  induction texts with
  | nil => cases h : contents others <;> simp [contents, h, bind, Except.bind, pure, Except.pure]
  | cons text rest ih =>
    rw [List.cons_append, contents, contents, ih]
    cases content text with
    | error c => rfl
    | ok xs =>
      cases contents rest with
      | error c => rfl
      | ok ys =>
        cases contents others with
        | error c => rfl
        | ok zs => simp [bind, Except.bind, pure, Except.pure]

/-- A text says what its chunks say. -/
theorem content_eq_contents (text : List Char) : content text = contents (chunks text) := by
  by_cases hsep : ∃ c ∈ text, isSeparator c = true
  · obtain ⟨c, hmem, hc⟩ := hsep
    obtain ⟨x, y, htext⟩ := List.append_of_mem hmem
    have hlength : text.length = x.length + (y.length + 1) := by simp [htext]
    rw [htext, content_around hc, content_eq_contents x, content_eq_contents y, chunks_around hc,
      contents_append]
  · have hsolid : ∀ c ∈ text, isSeparator c = false := by
      intro c hc
      rw [Bool.eq_false_iff]
      exact fun htrue => hsep ⟨c, hc, htrue⟩
    by_cases hnil : text = []
    · subst hnil
      simp [contents]
    · rw [chunks_of_solid hnil hsolid, contents, contents]
      cases content text <;> simp [bind, Except.bind, pure, Except.pure]
termination_by text.length

/-! ### Words of a command line -/

/-- The words that a text is split into at its spaces. -/
def splitAtSpaces (text : List Char) : List (List Char) :=
  (text.splitOn ' ').filter fun word => !word.isEmpty

theorem chunks_intercalate (texts : List (List Char)) :
    chunks ([' '].intercalate texts) = texts.flatMap chunks := by
  induction texts with
  | nil => simp
  | cons text rest ih =>
    cases rest with
    | nil => simp
    | cons next rest =>
      rw [List.intercalate_cons_cons, List.append_assoc, List.singleton_append,
        chunks_around rfl, ih, @List.flatMap_cons _ _ text]

theorem chunks_splitAtSpaces (text : List Char) :
    (splitAtSpaces text).flatMap chunks = chunks text := by
  have hjoined := chunks_intercalate (text.splitOn ' ')
  rw [List.intercalate_splitOn] at hjoined
  rw [hjoined, splitAtSpaces]
  induction text.splitOn ' ' with
  | nil => rfl
  | cons word words ih =>
    cases word with
    | nil => simpa using ih
    | cons c word => simpa using ih

/-! ### Texts of tokens -/

theorem Symbol.eq_of_chars_eq {s t : Symbol} (h : s.chars = t.chars) : s = t := by
  have hall : ∀ s ∈ all, ∀ t ∈ all, s.chars = t.chars → s = t := by decide
  exact hall s s.mem_all t t.mem_all h

/-- A text is one token only. -/
theorem IsForm.unique {text : List Char} {x y : Lexeme} (hx : IsForm text x)
    (hy : IsForm text y) : x = y := by
  cases hx with
  | numeral h => exact (exists_number_of_isForm h hy).symm
  | @name c rest hstart hrest =>
    generalize htext : c :: rest = text at hy
    cases hy with
    | name _ _ => rfl
    | numeral h => exact exists_number_of_isForm h (htext ▸ .name hstart hrest)
    | symbol s =>
      obtain ⟨d, word, hchars, -, hname, -⟩ := Symbol.starts_all s s.mem_all
      rw [hchars] at htext
      obtain rfl : c = d := (List.cons.inj htext).1
      rw [hstart] at hname
      cases hname
  | symbol s =>
    generalize htext : s.chars = text at hy
    cases hy with
    | symbol t => rw [Symbol.eq_of_chars_eq htext]
    | numeral h => exact exists_number_of_isForm h (htext ▸ .symbol s)
    | @name c rest hstart hrest =>
      obtain ⟨d, word, hchars, -, hname, -⟩ := Symbol.starts_all s s.mem_all
      rw [hchars] at htext
      obtain rfl : d = c := (List.cons.inj htext).1
      rw [hstart] at hname
      cases hname

/-- Tokens with the same texts have the same kinds and values. -/
theorem lexemes_eq_of_slices_eq {s t : String} {tokens others : List Token}
    (htokens : ∀ token ∈ tokens, IsForm (token.slice s.toList) token.lexeme)
    (hothers : ∀ token ∈ others, IsForm (token.slice t.toList) token.lexeme)
    (h : tokens.map (·.slice s.toList) = others.map (·.slice t.toList)) :
    tokens.map Token.lexeme = others.map Token.lexeme := by
  induction tokens generalizing others with
  | nil =>
    cases others with
    | nil => rfl
    | cons other others => simp at h
  | cons token tokens ih =>
    cases others with
    | nil => simp at h
    | cons other others =>
      rw [List.map_cons, List.map_cons] at h
      obtain ⟨hslice, hrest⟩ := List.cons.inj h
      have hform := htokens token List.mem_cons_self
      rw [hslice] at hform
      rw [List.map_cons, List.map_cons, hform.unique (hothers other List.mem_cons_self),
        ih (fun u hu => htokens u (List.mem_cons_of_mem token hu))
          (fun u hu => hothers u (List.mem_cons_of_mem other hu)) hrest]

/-- **Scanning composes across separators.**  A source with separators between two parts has the
tokens of the first part and then those of the second part, moved by the length of what stands
before it, or it has the first part's error, or else the second part's error moved in the same
way.  The kinds and values of tokens are decided by the texts of the tokens, and those of a
whole source by its chunks: the words that it is split into at its spaces say the same when
they are joined again. -/
theorem tokenize_around :
    (∀ a w b : String, w ≠ "" → (∀ c ∈ w.toList, isSeparator c = true) →
      tokenize (a ++ w ++ b) = do
        let before ← tokenize a
        let after ← shiftScan (a.length + w.length) (tokenize b)
        return before ++ after) ∧
    (∀ s t tokens others, tokenize s = .ok tokens → tokenize t = .ok others →
      tokens.map (·.slice s.toList) = others.map (·.slice t.toList) →
      tokens.map Token.lexeme = others.map Token.lexeme) ∧
    (∀ s t : String, chunks s.toList = chunks t.toList →
      unplaced (tokenize s) = unplaced (tokenize t)) ∧
    ∀ s : String,
      unplaced (tokenize (" ".intercalate ((splitAtSpaces s.toList).map String.ofList)))
        = unplaced (tokenize s) := by
  have hchunks : ∀ s t : String, chunks s.toList = chunks t.toList →
      unplaced (tokenize s) = unplaced (tokenize t) := by
    intro s t h
    have hs := content_eq_contents s.toList
    rw [h, ← content_eq_contents] at hs
    exact hs
  refine ⟨?_, ?_, hchunks, ?_⟩
  · intro a w b hne hw
    have hchars : w.toList ≠ [] := by simpa using hne
    simp only [tokenize, String.toList_append, tokensFrom_around hchars hw, String.length_toList]
  · intro s t tokens others hs ht h
    exact lexemes_eq_of_slices_eq (fun u hu => isForm_slice hs hu) (fun u hu => isForm_slice ht hu) h
  · intro s
    apply hchunks
    rw [String.toList_intercalate, List.map_map, ← chunks_splitAtSpaces s.toList]
    have hwords : (splitAtSpaces s.toList).map (String.toList ∘ String.ofList)
        = splitAtSpaces s.toList := by simp [Function.comp_def]
    rw [hwords]
    exact chunks_intercalate _

/-- A symbol is not put together across a line end, and an error after it is where its character
stands. -/
theorem tokenize_brokenSymbol :
    (∀ c ∈ " \n".toList, isSeparator c = true) ∧
      tokenize ("x<" ++ " \n" ++ "<=y") = .ok [⟨.identifier "x", 0, 1⟩, ⟨.symbol .less, 1, 2⟩,
        ⟨.symbol .lessEqual, 4, 6⟩, ⟨.identifier "y", 6, 7⟩] ∧
      tokenize ("x<" ++ " \n" ++ "<$") = .error ⟨5, '$'⟩ ∧
      (∀ tokens others, tokenize "x<\n<=y" = .ok tokens → tokenize "x < <=y" = .ok others →
        tokens.map Token.lexeme = others.map Token.lexeme) ∧
      chunks "x<  <=y".toList = chunks " x<\n<=y\n".toList ∧
      unplaced (tokenize "x<  <=y") = unplaced (tokenize " x<\n<=y\n") := by
  obtain ⟨haround, htexts, hchunks, -⟩ := tokenize_around
  have hall : " \n".toList.all isSeparator = true := by decide
  have hw : ∀ c ∈ " \n".toList, isSeparator c = true := List.all_eq_true.mp hall
  have hsame : chunks "x<  <=y".toList = chunks " x<\n<=y\n".toList := by decide
  refine ⟨hw, ?_, ?_, ?_, hsame, hchunks _ _ hsame⟩
  · rw [haround "x<" " \n" "<=y" (by decide) hw]
    rfl
  · rw [haround "x<" " \n" "<$" (by decide) hw]
    rfl
  · intro tokens others hs ht
    apply htexts _ _ _ _ hs ht
    obtain rfl := Except.ok.inj hs
    obtain rfl := Except.ok.inj ht
    rfl

end Calculator
