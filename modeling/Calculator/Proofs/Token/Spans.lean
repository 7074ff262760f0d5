/-
  Calculator/Proofs/Token/Spans.lean
  ==================================
  **What a scan makes of a source.**  A scan passes over separators, cuts the
  longest form off the front of the text, and stops at a character that no form
  starts with.  This is all that it does, so whatever holds of scans is proved by
  cases on these steps.

  The tokens of a source are spans of it.  They follow one another, only
  separators are left between them, and each holds the longest form that stands
  at its start.  A source is refused exactly if it has a character without a
  meaning, and the first of them is reported.
-/
import Calculator.Proofs.Token.Forms
import Calculator.Session

namespace Calculator

/-- The text of a token in its source. -/
def Token.slice (t : Token) (source : List Char) : List Char :=
  (source.drop t.start).take (t.stop - t.start)

/-! ### Scans -/

/-- The steps of a scan of a text that stands at an offset of its source, and its result. -/
inductive Scans : Nat → List Char → Except InvalidToken (List Token) → Prop where
  | done {offset : Nat} : Scans offset [] (.ok [])
  | separator {offset : Nat} {c : Char} {rest : List Char}
      {result : Except InvalidToken (List Token)} (hsep : isSeparator c = true)
      (h : Scans (offset + 1) rest result) : Scans offset (c :: rest) result
  | token {offset : Nat} {word rest : List Char} {x : Lexeme}
      {result : Except InvalidToken (List Token)} (hword : LongestForm (word ++ rest) word x)
      (h : Scans (offset + word.length) rest result) :
      Scans offset (word ++ rest) (result.map (⟨x, offset, offset + word.length⟩ :: ·))
  | invalid {offset : Nat} {c : Char} {rest : List Char} (hc : isSourceChar c = false) :
      Scans offset (c :: rest) (.error ⟨offset, c⟩)

/-- A text that starts with a lexeme has its token and then the tokens of the rest. -/
theorem tokensFrom_word {c : Char} {word rest : List Char} {x : Lexeme}
    (hsep : isSeparator c = false)
    (hread : Lexeme.read? (c :: word ++ rest) = some (x, (c :: word).length)) (offset : Nat) :
    tokensFrom offset 0 (c :: word ++ rest) =
      (tokensFrom (offset + (c :: word).length) 0 rest).map
        (⟨x, offset, offset + (c :: word).length⟩ :: ·) := by
  have hskip : tokensFrom (offset + 1) word.length (word ++ rest) =
      tokensFrom (offset + (c :: word).length) 0 rest := by
    rw [tokensFrom_skip, List.drop_left, List.length_cons, Nat.add_assoc, Nat.add_comm 1]
  rw [← hskip]
  rw [List.cons_append] at hread ⊢
  rw [tokensFrom, if_neg (by simp [hsep]), hread]
  simp only [List.length_cons, Nat.add_sub_cancel]
  cases tokensFrom (offset + 1) word.length (word ++ rest) <;> rfl

theorem scans_tokensFrom (offset : Nat) (text : List Char) :
    Scans offset text (tokensFrom offset 0 text) := by
  match text with
  | [] => exact .done
  | c :: rest =>
    cases hsep : isSeparator c with
    | true =>
      rw [tokensFrom, if_pos hsep]
      exact .separator hsep (scans_tokensFrom (offset + 1) rest)
    | false =>
      cases hread : Lexeme.read? (c :: rest) with
      | none =>
        simp only [tokensFrom, hsep, Bool.false_eq_true, if_false, hread]
        exact .invalid ((Lexeme.read?_eq_none_iff hsep).mp hread)
      | some found =>
        obtain ⟨x, n⟩ := found
        obtain ⟨word, rfl, hword⟩ := Lexeme.longestForm_of_read? hread
        obtain ⟨d, word, rfl⟩ := List.exists_cons_of_ne_nil (Lexeme.ne_nil_of_isForm hword.form)
        obtain ⟨tail, htail⟩ := hword.starts
        have hshorter : tail.length < (c :: rest).length := by
          rw [← htail, List.length_append, List.length_cons]
          omega
        obtain rfl : d = c := (List.cons.inj htail).1
        rw [← htail] at hread hword ⊢
        rw [tokensFrom_word hsep hread]
        exact .token hword (scans_tokensFrom _ tail)
termination_by text.length
decreasing_by
  · exact hshorter
  · exact Nat.lt_succ_self _

/-! ### Characters without a meaning -/

theorem isSourceChar_of_scans {offset : Nat} {text : List Char}
    {result : Except InvalidToken (List Token)} (h : Scans offset text result)
    {tokens : List Token} (hok : result = .ok tokens) : ∀ c ∈ text, isSourceChar c = true := by
  induction h generalizing tokens with
  | done => simp
  | separator hsep h ih =>
    intro c hc
    rcases List.mem_cons.mp hc with rfl | hc
    · simp [isSourceChar, hsep]
    · exact ih hok c hc
  | @token offset word rest x result hword h ih =>
    intro c hc
    cases result with
    | error e => simp [Except.map] at hok
    | ok tail =>
      rcases List.mem_append.mp hc with hc | hc
      · exact Lexeme.isSourceChar_of_isForm hword.form hc
      · exact ih rfl c hc
  | invalid hc => simp at hok

/-- A refused text has been passed over up to its first character without a meaning. -/
theorem first_of_scans {offset : Nat} {text : List Char}
    {result : Except InvalidToken (List Token)} (h : Scans offset text result)
    {e : InvalidToken} (herror : result = .error e) :
    ∃ before after, text = before ++ e.char :: after ∧ e.offset = offset + before.length ∧
      (∀ c ∈ before, isSourceChar c = true) ∧ isSourceChar e.char = false := by
  induction h generalizing e with
  | done => simp at herror
  | @separator offset c rest result hsep h ih =>
    obtain ⟨before, after, rfl, hoffset, hbefore, hchar⟩ := ih herror
    refine ⟨c :: before, after, rfl, ?_, ?_, hchar⟩
    · simp only [hoffset, List.length_cons]
      omega
    · intro d hd
      rcases List.mem_cons.mp hd with rfl | hd
      · simp [isSourceChar, hsep]
      · exact hbefore d hd
  | @token offset word rest x result hword h ih =>
    cases result with
    | ok tail => simp [Except.map] at herror
    | error e' =>
      obtain rfl : e' = e := by simpa [Except.map] using herror
      obtain ⟨before, after, rfl, hoffset, hbefore, hchar⟩ := ih rfl
      refine ⟨word ++ before, after, by simp, ?_, ?_, hchar⟩
      · simp only [hoffset, List.length_append]
        omega
      · intro d hd
        rcases List.mem_append.mp hd with hd | hd
        · exact Lexeme.isSourceChar_of_isForm hword.form hd
        · exact hbefore d hd
  | @invalid offset c rest hc =>
    obtain rfl := Except.error.inj herror
    exact ⟨[], rest, rfl, rfl, by simp, hc⟩

/-! ### Spans -/

/-- The tokens of a source from an offset on: spans in order, with the longest forms that stand
there, and only separators outside them. -/
structure Spans (source : List Char) (offset : Nat) (tokens : List Token) : Prop where
  inside : ∀ t ∈ tokens, offset ≤ t.start ∧ t.start < t.stop ∧ t.stop ≤ source.length
  ordered : tokens.Pairwise fun s t => s.stop ≤ t.start
  gaps : ∀ i c, offset ≤ i → source[i]? = some c →
    (∀ t ∈ tokens, i < t.start ∨ t.stop ≤ i) → isSeparator c = true
  longest : ∀ t ∈ tokens, LongestForm (source.drop t.start) (t.slice source) t.lexeme

theorem spans_nil {source : List Char} {offset : Nat} (h : source.drop offset = []) :
    Spans source offset [] := by
  refine ⟨by simp, .nil, ?_, by simp⟩
  intro i c hi hc
  have hlt := (List.getElem?_eq_some_iff.mp hc).1
  have hle := List.drop_eq_nil_iff.mp h
  omega

theorem spans_separator {source : List Char} {offset : Nat} {c : Char} {tokens : List Token}
    (hc : source[offset]? = some c) (hsep : isSeparator c = true)
    (h : Spans source (offset + 1) tokens) : Spans source offset tokens := by
  refine ⟨?_, h.ordered, ?_, h.longest⟩
  · intro t ht
    obtain ⟨hstart, hrest⟩ := h.inside t ht
    exact ⟨by omega, hrest⟩
  · intro i d hi hd hout
    rcases Nat.eq_or_lt_of_le hi with rfl | hlt
    · rw [hc, Option.some.injEq] at hd
      exact hd ▸ hsep
    · exact h.gaps i d hlt hd hout

theorem spans_token {source word rest : List Char} {offset : Nat} {x : Lexeme}
    {tokens : List Token} (htext : source.drop offset = word ++ rest)
    (hword : LongestForm (word ++ rest) word x)
    (h : Spans source (offset + word.length) tokens) :
    Spans source offset (⟨x, offset, offset + word.length⟩ :: tokens) := by
  have hpos : 0 < word.length := List.length_pos_iff.mpr (Lexeme.ne_nil_of_isForm hword.form)
  have hlength : source.length - offset = word.length + rest.length := by
    rw [← List.length_drop, htext, List.length_append]
  refine ⟨?_, ?_, ?_, ?_⟩
  · intro t ht
    rcases List.mem_cons.mp ht with rfl | ht
    · exact ⟨Nat.le_refl _, by dsimp only; omega, by dsimp only; omega⟩
    · obtain ⟨hstart, hrest⟩ := h.inside t ht
      exact ⟨by omega, hrest⟩
  · refine List.pairwise_cons.mpr ⟨?_, h.ordered⟩
    intro t ht
    exact (h.inside t ht).1
  · intro i d hi hd hout
    have hthis := hout _ List.mem_cons_self
    refine h.gaps i d (by dsimp only at hthis; omega) hd ?_
    intro t ht
    exact hout t (List.mem_cons_of_mem _ ht)
  · intro t ht
    rcases List.mem_cons.mp ht with rfl | ht
    · have hslice : Token.slice ⟨x, offset, offset + word.length⟩ source = word := by
        simp [Token.slice, htext]
      rw [hslice, htext]
      exact hword
    · exact h.longest t ht

theorem spans_of_scans {source text : List Char} {offset : Nat}
    {result : Except InvalidToken (List Token)} (h : Scans offset text result)
    (htext : source.drop offset = text) {tokens : List Token} (hok : result = .ok tokens) :
    Spans source offset tokens := by
  induction h generalizing tokens with
  | done =>
    obtain rfl := Except.ok.inj hok
    exact spans_nil htext
  | @separator offset c rest result hsep h ih =>
    have hrest : source.drop (offset + 1) = rest := by
      rw [← List.drop_drop, htext, List.drop_succ_cons, List.drop_zero]
    have hc : source[offset]? = some c := by
      rw [← List.head?_drop, htext, List.head?_cons]
    exact spans_separator hc hsep (ih hrest hok)
  | @token offset word rest x result hword h ih =>
    cases result with
    | error e => simp [Except.map] at hok
    | ok tail =>
      obtain rfl : _ :: tail = tokens := by simpa [Except.map] using hok
      have hrest : source.drop (offset + word.length) = rest := by
        rw [← List.drop_drop, htext, List.drop_left]
      exact spans_token htext hword (ih hrest rfl)
  | invalid hc => simp at hok

/-! ### Sources -/

theorem isSourceChar_of_tokenize {source : String} {tokens : List Token}
    (h : tokenize source = .ok tokens) : ∀ c ∈ source.toList, isSourceChar c = true :=
  isSourceChar_of_scans (scans_tokensFrom 0 source.toList) h

/-- The character that is reported is the first one without a meaning. -/
theorem findIdx?_of_tokenize {source : String} {e : InvalidToken}
    (h : tokenize source = .error e) :
    source.toList.findIdx? (fun c => !isSourceChar c) = some e.offset ∧
      source.toList[e.offset]? = some e.char ∧ isSourceChar e.char = false := by
  obtain ⟨before, after, htext, hoffset, hbefore, hchar⟩ :=
    first_of_scans (scans_tokensFrom 0 source.toList) h
  rw [Nat.zero_add] at hoffset
  have hnone : before.findIdx? (fun c => !isSourceChar c) = none := by
    rw [List.findIdx?_eq_none_iff]
    intro c hc
    simp [hbefore c hc]
  refine ⟨?_, ?_, hchar⟩
  · rw [htext, hoffset, List.findIdx?_append, hnone]
    simp [List.findIdx?_cons, hchar]
  · rw [htext, hoffset, List.getElem?_append_right (Nat.le_refl _), Nat.sub_self]
    rfl

/-- **The scanner reads longest forms, and fails at the first character without a meaning.**  A
source is refused if and only if it has such a character, and the error has the place of the
first one.  Otherwise the tokens are spans of the source in order, with nothing but separators
outside them, and each of them is the longest form that stands at its start. -/
theorem tokenize_longest_forms (source : String) :
    ((∃ e, tokenize source = .error e) ↔ ∃ c ∈ source.toList, isSourceChar c = false) ∧
    (∀ e, tokenize source = .error e →
      source.toList.findIdx? (fun c => !isSourceChar c) = some e.offset ∧
      source.toList[e.offset]? = some e.char ∧ (Error.lexical e).column? = some e.offset) ∧
    ∀ tokens, tokenize source = .ok tokens →
      (∀ t ∈ tokens, t.start < t.stop ∧ t.stop ≤ source.length) ∧
      tokens.Pairwise (fun s t => s.stop ≤ t.start) ∧
      (∀ i c, source.toList[i]? = some c → (∀ t ∈ tokens, i < t.start ∨ t.stop ≤ i) →
        isSeparator c = true) ∧
      ∀ t ∈ tokens,
        LongestForm (source.toList.drop t.start) (t.slice source.toList) t.lexeme := by
  refine ⟨?_, ?_, ?_⟩
  · constructor
    · rintro ⟨e, he⟩
      obtain ⟨-, hmem, hchar⟩ := findIdx?_of_tokenize he
      exact ⟨e.char, List.mem_of_getElem? hmem, hchar⟩
    · rintro ⟨c, hc, hbad⟩
      cases hscan : tokenize source with
      | error e => exact ⟨e, rfl⟩
      | ok tokens =>
        have hgood := isSourceChar_of_tokenize hscan c hc
        simp [hbad] at hgood
  · intro e he
    obtain ⟨hfirst, hmem, -⟩ := findIdx?_of_tokenize he
    exact ⟨hfirst, hmem, rfl⟩
  · intro tokens hok
    have hspans : Spans source.toList 0 tokens :=
      spans_of_scans (scans_tokensFrom 0 source.toList) List.drop_zero hok
    refine ⟨?_, hspans.ordered, fun i c => hspans.gaps i c (Nat.zero_le i), hspans.longest⟩
    intro t ht
    obtain ⟨-, hinside⟩ := hspans.inside t ht
    rwa [String.length_toList] at hinside

/-- Of the symbols that stand at the second character the longest one is read. -/
theorem tokenize_shifted :
    tokenize "x<<=y" = .ok [⟨.identifier "x", 0, 1⟩, ⟨.symbol .shiftLeftAssign, 1, 4⟩,
      ⟨.identifier "y", 4, 5⟩] ∧
    LongestForm "<<=y".toList "<<=".toList (.symbol .shiftLeftAssign) := by
  have hscan : tokenize "x<<=y" = .ok [⟨.identifier "x", 0, 1⟩, ⟨.symbol .shiftLeftAssign, 1, 4⟩,
      ⟨.identifier "y", 4, 5⟩] := rfl
  obtain ⟨-, -, -, hlongest⟩ := (tokenize_longest_forms "x<<=y").2.2 _ hscan
  exact ⟨hscan, hlongest ⟨.symbol .shiftLeftAssign, 1, 4⟩ (by simp)⟩

end Calculator
