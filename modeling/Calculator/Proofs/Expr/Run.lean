/-
  Calculator/Proofs/Expr/Run.lean
  ===============================
  **Runs of a reader.**  A run is described by the lexemes that the reader takes
  one after the other and by the step at which it stops.  The list of tokens does
  not matter beyond that: an expression has been read, or the tokens have been
  refused, exactly when the reader takes the lexemes before some token and stops
  at that token, or at the end of the input.
-/
import Calculator.Proofs.Expr.Grammar

namespace Calculator.Expr

/-! ### Runs -/

/-- The step of a reader at a lexeme or, when there is none, at the end of the input. -/
def Reader.next (r : Reader) : Option Lexeme → Advance
  | none => r.atEnd
  | some x => r.advance x

/-- The reader after a list of lexemes, if it takes all of them. -/
def Reader.feed (r : Reader) : List Lexeme → Option Reader
  | [] => some r
  | x :: rest =>
    match r.advance x with
    | .taken r => r.feed rest
    | _ => none

theorem feed_append (r : Reader) (xs ys : List Lexeme) :
    r.feed (xs ++ ys) = (r.feed xs).bind fun r => r.feed ys := by
  induction xs generalizing r with
  | nil => rfl
  | cons x rest ih =>
    simp only [List.cons_append, Reader.feed]
    split
    · exact ih _
    · rfl

theorem feed_cons {r s : Reader} {x : Lexeme}
    (h : r.advance x = .taken s) (rest : List Lexeme) :
    r.feed (x :: rest) = s.feed rest := by
  simp only [Reader.feed, h]

theorem concluded_ne_taken (frames : List Frame) (e : Expr) (r : Reader) :
    concluded frames e ≠ .taken r := by
  unfold concluded
  split <;> simp

theorem readTokens_feed {r r' : Reader} {read : List Token}
    (hread : r.feed (read.map Token.lexeme) = some r') (rest : List Token) :
    readTokens r (read ++ rest) = readTokens r' rest := by
  induction read generalizing r with
  | nil =>
    simp only [List.map_nil, Reader.feed, Option.some.injEq] at hread
    rw [hread]
    rfl
  | cons token tokens ih =>
    simp only [List.map_cons, Reader.feed] at hread
    split at hread
    · next r'' hstep =>
      simp only [List.cons_append, readTokens, hstep]
      exact ih hread
    · simp at hread

theorem readTokens_finished {r : Reader} {rest : List Token} {e : Expr}
    (hend : r.next (rest.head?.map Token.lexeme) = .finished e) :
    readTokens r rest = .ok (e, rest) := by
  cases rest with
  | nil =>
    have hend' : r.atEnd = .finished e := hend
    simp only [readTokens, hend']
  | cons token tokens =>
    have hend' : r.advance token.lexeme = .finished e := hend
    simp only [readTokens, hend']

/-- An expression has been read when the reader takes the lexemes before the rest and is
finished at the rest. -/
theorem readTokens_eq_ok_iff {r : Reader} {tokens rest : List Token}
    {e : Expr} :
    readTokens r tokens = .ok (e, rest) ↔
      ∃ read r', tokens = read ++ rest ∧ r.feed (read.map Token.lexeme) = some r' ∧
        r'.next (rest.head?.map Token.lexeme) = .finished e := by
  constructor
  · intro h
    induction tokens generalizing r with
    | nil =>
      simp only [readTokens] at h
      split at h
      · simp at h
      · next e' hend =>
        simp only [Except.ok.injEq, Prod.mk.injEq] at h
        obtain ⟨rfl, rfl⟩ := h
        exact ⟨[], r, rfl, rfl, hend⟩
      · simp at h
    | cons token tokens ih =>
      simp only [readTokens] at h
      split at h
      · next r' hstep =>
        obtain ⟨read, r'', rfl, hread, hend⟩ := ih h
        exact ⟨token :: read, r'', rfl, (feed_cons hstep _).trans hread, hend⟩
      · next e' hend =>
        simp only [Except.ok.injEq, Prod.mk.injEq] at h
        obtain ⟨rfl, rfl⟩ := h
        exact ⟨[], r, rfl, rfl, hend⟩
      · simp at h
  · rintro ⟨read, r', rfl, hread, hend⟩
    rw [readTokens_feed hread]
    exact readTokens_finished hend

theorem atEnd_ne_taken (r r' : Reader) : r.atEnd ≠ .taken r' := by
  unfold Reader.atEnd
  split
  · simp
  · exact concluded_ne_taken _ _ _
  · exact concluded_ne_taken _ _ _

theorem readTokens_refused {r : Reader} {rest : List Token} {why : Refusal}
    (hstop : r.next (rest.head?.map Token.lexeme) = .refused why) :
    readTokens r rest = .error (why, rest) := by
  cases rest with
  | nil =>
    have hstop' : r.atEnd = .refused why := hstop
    simp only [readTokens, hstop']
  | cons token tokens =>
    have hstop' : r.advance token.lexeme = .refused why := hstop
    simp only [readTokens, hstop']

/-- Tokens are refused when the reader takes the lexemes before the rest and refuses the rest. -/
theorem readTokens_eq_error_iff {r : Reader} {tokens rest : List Token}
    {why : Refusal} :
    readTokens r tokens = .error (why, rest) ↔
      ∃ read r', tokens = read ++ rest ∧ r.feed (read.map Token.lexeme) = some r' ∧
        r'.next (rest.head?.map Token.lexeme) = .refused why := by
  constructor
  · intro h
    induction tokens generalizing r with
    | nil =>
      simp only [readTokens] at h
      split at h
      · next r' hend => exact absurd hend (atEnd_ne_taken r r')
      · simp at h
      · next why' hend =>
        simp only [Except.error.injEq, Prod.mk.injEq] at h
        obtain ⟨rfl, rfl⟩ := h
        exact ⟨[], r, rfl, rfl, hend⟩
    | cons token tokens ih =>
      simp only [readTokens] at h
      split at h
      · next r' hstep =>
        obtain ⟨read, r'', rfl, hread, hstop⟩ := ih h
        exact ⟨token :: read, r'', rfl, (feed_cons hstep _).trans hread, hstop⟩
      · simp at h
      · next why' hstop =>
        simp only [Except.error.injEq, Prod.mk.injEq] at h
        obtain ⟨rfl, rfl⟩ := h
        exact ⟨[], r, rfl, rfl, hstop⟩
  · rintro ⟨read, r', rfl, hread, hstop⟩
    rw [readTokens_feed hread]
    exact readTokens_refused hstop

/-! ### Lists of tokens -/

/-- An expression stands at an offset when the reader takes the lexemes from there to some
token and is finished at that token. -/
theorem readFrom_eq_ok_iff {tokens : List Token} {offset stop : Nat} {e : Expr} :
    readFrom tokens offset = .ok (e, stop) ↔
      ∃ read rest r, tokens.drop offset = read ++ rest ∧ stop = offset + read.length ∧
        Reader.start.feed (read.map Token.lexeme) = some r ∧
        r.next (rest.head?.map Token.lexeme) = .finished e := by
  constructor
  · intro h
    simp only [readFrom] at h
    split at h
    · next e' rest hok =>
      simp only [Except.ok.injEq, Prod.mk.injEq] at h
      obtain ⟨rfl, hstop⟩ := h
      obtain ⟨read, r, htokens, hread, hend⟩ := readTokens_eq_ok_iff.mp hok
      refine ⟨read, rest, r, htokens, ?_, hread, hend⟩
      rw [← hstop, htokens]
      simp
    · simp at h
  · rintro ⟨read, rest, r, htokens, rfl, hread, hend⟩
    have hok : readTokens .start (tokens.drop offset) = .ok (e, rest) :=
      readTokens_eq_ok_iff.mpr ⟨read, r, htokens, hread, hend⟩
    rw [htokens] at hok
    simp [readFrom, htokens, hok]

/-- There is no expression at an offset when the reader takes the lexemes from there to some
token and refuses that token. -/
theorem readFrom_eq_error_iff {tokens : List Token} {offset : Nat} {why : SyntaxError} :
    readFrom tokens offset = .error why ↔
      ∃ read rest r refusal, tokens.drop offset = read ++ rest ∧
        Reader.start.feed (read.map Token.lexeme) = some r ∧
        r.next (rest.head?.map Token.lexeme) = .refused refusal ∧
        why = refusal.error tokens (offset + read.length) := by
  have hsum : ∀ {read rest : List Token}, tokens.drop offset = read ++ rest →
      offset + ((tokens.drop offset).length - rest.length) = offset + read.length := by
    intro read rest htokens
    simp [htokens]
  constructor
  · intro h
    simp only [readFrom] at h
    split at h
    · simp at h
    · next refusal rest hread =>
      obtain ⟨read, r, htokens, hfeed, hstop⟩ := readTokens_eq_error_iff.mp hread
      refine ⟨read, rest, r, refusal, htokens, hfeed, hstop, ?_⟩
      rw [hsum htokens] at h
      exact (Except.error.inj h).symm
  · rintro ⟨read, rest, r, refusal, htokens, hfeed, hstop, rfl⟩
    have hread := readTokens_eq_error_iff.mpr ⟨read, r, htokens, hfeed, hstop⟩
    simp only [readFrom, hread, hsum htokens]

/-- A list of tokens is an expression when the reader takes all of them and is finished at the
end of the input. -/
theorem readWhole_eq_ok_iff {tokens : List Token} {e : Expr} :
    readWhole tokens = .ok e ↔
      ∃ r, Reader.start.feed (tokens.map Token.lexeme) = some r ∧ r.atEnd = .finished e := by
  constructor
  · intro h
    simp only [readWhole] at h
    split at h
    · next e' stop hok =>
      split at h
      · simp at h
      · next hstop =>
        simp only [Except.ok.injEq] at h
        subst h
        obtain ⟨read, rest, r, htokens, rfl, hread, hend⟩ := readFrom_eq_ok_iff.mp hok
        rw [List.drop_zero] at htokens
        -- nothing is left after the expression
        have hrest : rest = [] := by
          rw [htokens, List.length_append] at hstop
          exact List.length_eq_zero_iff.mp (by omega)
        subst hrest
        rw [List.append_nil] at htokens
        exact ⟨r, htokens ▸ hread, hend⟩
    · simp at h
  · rintro ⟨r, hread, hend⟩
    have hok : readFrom tokens 0 = .ok (e, tokens.length) :=
      readFrom_eq_ok_iff.mpr ⟨tokens, [], r, by simp, by simp, hread, hend⟩
    simp [readWhole, hok]

end Calculator.Expr
