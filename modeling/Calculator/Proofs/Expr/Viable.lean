/-
  Calculator/Proofs/Expr/Viable.lean
  ==================================
  **Where a list of tokens stops being the start of an expression.**  Lexemes are
  *viable* if some expression starts with them.  A reader takes exactly the
  viable lists of lexemes.  It takes the start of every spelling, because it
  takes the whole spelling.  And whatever it has taken can be completed: an
  operand that is missing can be a number, and then every parenthesis and every
  call that is open can be closed.

  So the token at which a reader stops is the first one that no expression goes
  on with.  What the reader reports there depends only on what it has taken: an
  operand is missing, or the expression is complete, or it is neither and a
  parenthesis or a call is open.
-/
import Calculator.Proofs.Expr.Spelling

namespace Calculator.Expr

/-! ### Expressions and their starts -/

/-- Lexemes that are a whole expression of the grammar. -/
def IsExpression (xs : List Lexeme) : Prop :=
  ∃ e : Expr, e.isWellFormed = true ∧ e.spelling = xs

/-- Lexemes that some expression of the grammar starts with. -/
def IsViable (xs : List Lexeme) : Prop := ∃ ys, IsExpression (xs ++ ys)

theorem isExpression_iff {xs : List Lexeme} :
    IsExpression xs ↔ ∃ r e, Reader.start.feed xs = some r ∧ r.atEnd = .finished e := by
  constructor
  · rintro ⟨e, hwf, rfl⟩
    obtain ⟨r, hread, hends⟩ := reads_of_wellFormed e hwf [] (Level.assignment_le _)
    exact ⟨r, e, hread, hends none rfl (Level.assignment_le _)⟩
  · rintro ⟨r, e, hread, hend⟩
    obtain ⟨hcoherent, hspelling⟩ := coherent_feed coherent_start hread
    have hnext : r.next none = .finished e := hend
    obtain ⟨hwf, hwhole⟩ := wellFormed_of_finished hcoherent hnext
    exact ⟨e, hwf, hwhole.trans hspelling⟩

/-! ### Completing what has been read -/

/-- A parenthesis or a call is closed by a closing parenthesis after its last operand. -/
theorem afterOperand_rightParen {f : Frame} (h : f.isBracket = true) (frames : List Frame)
    (e : Expr) :
    ∃ whole, afterOperand (f :: frames) e (.symbol .rightParen) =
      .taken (endedAt frames whole) := by
  cases f with
  | paren => exact ⟨.group e, rfl⟩
  | call name done => exact ⟨.call name (e :: done).reverse, rfl⟩
  | _ => simp [Frame.isBracket] at h

/-- After an operand, closing parentheses complete the expression. -/
theorem exists_completion {r : Reader} {frames : List Frame} {e : Expr} (h : r.Ends frames e) :
    ∃ ys r' whole, r.feed ys = some r' ∧ r'.atEnd = .finished whole := by
  have hsettled := settled_settle .assignment frames e
  have hle := (settle_suffix .assignment frames e).length_le
  have hend : r.atEnd = concluded (settle .assignment frames e).1 (settle .assignment frames e).2 :=
    h none rfl (Level.assignment_le _)
  have hclose : r.advance (.symbol .rightParen) =
      afterOperand (settle .assignment frames e).1 (settle .assignment frames e).2
        (.symbol .rightParen) :=
    h (some (.symbol .rightParen)) rfl (Level.assignment_le _)
  rcases hs : settle .assignment frames e with ⟨rest, last⟩
  rw [hs] at hsettled hle hend hclose
  cases rest with
  | nil => exact ⟨[], r, last, rfl, hend⟩
  | cons f rest =>
    have hbracket : f.isBracket = true := by
      have hf : f.closesAt .assignment = false := hsettled f (by simp)
      simpa [Frame.closesAt, Level.assignment_le] using hf
    obtain ⟨whole, hparen⟩ := afterOperand_rightParen hbracket rest last
    -- one construct less is open after the parenthesis
    obtain ⟨ys, r', whole', hread, hfinished⟩ := exists_completion (ends_endedAt rest whole)
    exact ⟨.symbol .rightParen :: ys, r', whole',
      (feed_cons (hclose.trans hparen) ys).trans hread, hfinished⟩
termination_by frames.length

/-- After an operand that has ended, a coherent reader goes on as if the operand stood closed. -/
theorem ends_of_coherent {frames : List Frame} {e : Expr}
    (h : Reader.Coherent ⟨frames, .ended e⟩) : Reader.Ends ⟨frames, .ended e⟩ frames e := by
  intro x _ _
  obtain ⟨-, -, hsettled⟩ := h.ended e rfl
  rw [after_settle e hsettled x]
  cases x <;> rfl

theorem exists_completion_of_coherent {r : Reader} (h : r.Coherent) :
    ∃ ys r' whole, r.feed ys = some r' ∧ r'.atEnd = .finished whole := by
  obtain ⟨frames, focus⟩ := r
  cases focus with
  | operand =>
    let zero : Binary64 := .zero false
    obtain ⟨ys, r', whole, hread, hend⟩ := exists_completion (ends_endedAt frames (.number zero))
    exact ⟨.number zero :: ys, r', whole, hread, hend⟩
  | named name => exact exists_completion (ends_named frames name)
  | ended e => exact exists_completion (ends_of_coherent h)

/-- A reader without a limit takes the viable lists of lexemes and no others. -/
theorem isViable_iff {xs : List Lexeme} :
    IsViable xs ↔ ∃ r, Reader.start.feed xs = some r := by
  constructor
  · rintro ⟨ys, hwhole⟩
    obtain ⟨r, -, hread, -⟩ := isExpression_iff.mp hwhole
    rw [feed_append] at hread
    obtain ⟨r', hread', -⟩ := Option.bind_eq_some_iff.mp hread
    exact ⟨r', hread'⟩
  · rintro ⟨r, hread⟩
    obtain ⟨hcoherent, -⟩ := coherent_feed coherent_start hread
    obtain ⟨ys, r', whole, hrest, hend⟩ := exists_completion_of_coherent hcoherent
    refine ⟨ys, isExpression_iff.mpr ⟨r', whole, ?_, hend⟩⟩
    rw [feed_append, hread]
    exact hrest

/-! ### Where a reader stops -/

theorem opened_none (frame : Frame) (frames : List Frame) :
    opened frame frames = .taken ⟨frame :: frames, .operand⟩ := by
  simp [opened]

/-- A lexeme after an operand is taken, or the reader stops there as at the end of the input. -/
theorem afterOperand_stops {frames : List Frame} (e : Expr) (x : Lexeme)
    (hsettled : Settled .unary frames) :
    (∃ r, afterOperand frames e x = .taken r) ∨
      afterOperand frames e x = concluded frames e := by
  rcases afterOperand_cases e x hsettled with ⟨op, -, heq⟩ | ⟨rest, body, -, -, heq⟩ |
    ⟨name, done, rest, last, -, -, heq⟩ | ⟨name, done, rest, last, -, -, heq⟩ | heq
  · exact Or.inl ⟨_, heq.trans (opened_none _ _)⟩
  · exact Or.inl ⟨_, heq⟩
  · exact Or.inl ⟨_, heq⟩
  · exact Or.inl ⟨_, heq⟩
  · exact Or.inr heq

/-- A reader at a lexeme, or at the end of the input, goes on, or misses an operand, or stops
there as it would stop at the end of the input. -/
theorem next_cases {r : Reader} (h : r.Coherent) (x : Option Lexeme) :
    (∃ r', r.next x = .taken r') ∨
      (r.focus = .operand ∧ r.next x = .refused .operandExpected) ∨
      (r.focus ≠ .operand ∧ r.next x = r.atEnd) := by
  obtain ⟨frames, focus⟩ := r
  cases x with
  | none =>
    cases focus with
    | operand => exact Or.inr (Or.inl ⟨rfl, rfl⟩)
    | named name => exact Or.inr (Or.inr ⟨by simp, rfl⟩)
    | ended e => exact Or.inr (Or.inr ⟨by simp, rfl⟩)
  | some x =>
    cases focus with
    | operand =>
      rcases atOperand_cases frames x with ⟨value, -, heq⟩ | ⟨name, -, heq⟩ | ⟨-, heq⟩ |
        ⟨name, rest, -, -, heq⟩ | ⟨op, -, heq⟩ | heq
      · exact Or.inl ⟨_, heq⟩
      · exact Or.inl ⟨_, heq⟩
      · exact Or.inl ⟨_, heq.trans (opened_none _ _)⟩
      · exact Or.inl ⟨_, heq⟩
      · exact Or.inl ⟨_, heq.trans (opened_none _ _)⟩
      · exact Or.inr (Or.inl ⟨rfl, heq⟩)
    | named name =>
      rcases afterName_cases frames name x with ⟨-, heq⟩ | ⟨op, -, -, heq⟩ | heq
      · exact Or.inl ⟨_, heq.trans (opened_none _ _)⟩
      · exact Or.inl ⟨_, heq.trans (opened_none _ _)⟩
      · have hsettled := settled_settle .unary frames (.identifier name)
        rcases afterOperand_stops _ x hsettled with ⟨r', htaken⟩ | hstops
        · exact Or.inl ⟨r', heq.trans htaken⟩
        · refine Or.inr (Or.inr ⟨by simp, (heq.trans hstops).trans ?_⟩)
          simp only [concluded, settle_settle (Level.assignment_le _), Reader.atEnd]
    | ended e =>
      obtain ⟨-, -, hsettled⟩ := h.ended e rfl
      rcases afterOperand_stops e x hsettled with ⟨r', htaken⟩ | hstops
      · exact Or.inl ⟨r', htaken⟩
      · exact Or.inr (Or.inr ⟨by simp, hstops⟩)

/-- A reader that is finished at a lexeme would be finished at the end of the input as well. -/
theorem atEnd_of_finished {r : Reader} (h : r.Coherent) {x : Option Lexeme} {e : Expr}
    (hend : r.next x = .finished e) : r.focus ≠ .operand ∧ r.atEnd = .finished e := by
  rcases next_cases h x with ⟨r', htaken⟩ | ⟨-, hrefused⟩ | ⟨hfocus, hsame⟩
  · simp [htaken] at hend
  · simp [hrefused] at hend
  · exact ⟨hfocus, hsame ▸ hend⟩

theorem atEnd_cases (r : Reader) :
    (r.focus = .operand ∧ r.atEnd = .refused .operandExpected) ∨
      (r.focus ≠ .operand ∧ ((∃ e, r.atEnd = .finished e) ∨
        r.atEnd = .refused .closingExpected)) := by
  have hconcluded : ∀ frames e, (∃ whole, concluded frames e = .finished whole) ∨
      concluded frames e = .refused .closingExpected := by
    intro frames e
    unfold concluded
    split
    · exact Or.inl ⟨_, rfl⟩
    · exact Or.inr rfl
  obtain ⟨frames, focus⟩ := r
  cases focus with
  | operand => exact Or.inl ⟨rfl, rfl⟩
  | named name => exact Or.inr ⟨by simp, hconcluded frames (.identifier name)⟩
  | ended e => exact Or.inr ⟨by simp, hconcluded frames e⟩

/-! ### What the lexemes before the stop decide -/

section Taken

variable {xs : List Lexeme} {r : Reader}

theorem isViable_concat_iff (hread : Reader.start.feed xs = some r) (x : Lexeme) :
    IsViable (xs ++ [x]) ↔ ∃ r', r.advance x = .taken r' := by
  rw [isViable_iff, feed_append, hread, Option.bind_some]
  constructor
  · rintro ⟨r', hnext⟩
    simp only [Reader.feed] at hnext
    split at hnext
    · next r'' hstep => exact ⟨r'', hstep⟩
    · simp at hnext
  · rintro ⟨r', hstep⟩
    exact ⟨r', feed_cons hstep []⟩

/-- A number can come next exactly where an operand has to start. -/
theorem isViable_number_iff (hread : Reader.start.feed xs = some r) (value : Binary64) :
    IsViable (xs ++ [.number value]) ↔ r.focus = .operand := by
  rw [isViable_concat_iff hread]
  obtain ⟨frames, focus⟩ := r
  cases focus with
  | operand => exact ⟨fun _ => rfl, fun _ => ⟨_, rfl⟩⟩
  | named name =>
    constructor
    · rintro ⟨r', hstep⟩
      exact absurd hstep (concluded_ne_taken _ _ r')
    · intro h
      simp at h
  | ended e =>
    constructor
    · rintro ⟨r', hstep⟩
      exact absurd hstep (concluded_ne_taken _ _ r')
    · intro h
      simp at h

theorem isExpression_iff_atEnd (hread : Reader.start.feed xs = some r) :
    IsExpression xs ↔ ∃ e, r.atEnd = .finished e := by
  rw [isExpression_iff]
  constructor
  · rintro ⟨r', e, hread', hend⟩
    rw [hread] at hread'
    exact ⟨e, Option.some.inj hread' ▸ hend⟩
  · rintro ⟨e, hend⟩
    exact ⟨r, e, hread, hend⟩

end Taken

/-- Tokens that are no expression are taken up to the stop of the reader. -/
theorem stop_of_readWhole {tokens : List Token} {why : SyntaxError}
    (h : readWhole tokens = .error why) :
    ∃ read rest r, tokens = read ++ rest ∧
      Reader.start.feed (read.map Token.lexeme) = some r ∧
      ((∃ e, r.next (rest.head?.map Token.lexeme) = .finished e ∧ rest ≠ [] ∧
          why = .inputLeft (placeAt tokens read.length)) ∨
        ∃ refusal, r.next (rest.head?.map Token.lexeme) = .refused refusal ∧
          why = refusal.error tokens read.length) := by
  simp only [readWhole] at h
  split at h
  · next e stop hok =>
    obtain ⟨read, rest, r, htokens, rfl, hread, hend⟩ := readFrom_eq_ok_iff.mp hok
    rw [List.drop_zero] at htokens
    rw [Nat.zero_add] at h
    split at h
    · next hstop =>
      refine ⟨read, rest, r, htokens, hread, Or.inl ⟨e, hend, ?_, (Except.error.inj h).symm⟩⟩
      rintro rfl
      simp [htokens] at hstop
    · simp at h
  · next why' herror =>
    obtain ⟨read, rest, r, refusal, htokens, hread, hstop, hwhy⟩ :=
      readFrom_eq_error_iff.mp herror
    rw [Nat.zero_add] at hwhy
    exact ⟨read, rest, r, htokens, hread, Or.inr ⟨refusal, hstop, (Except.error.inj h) ▸ hwhy⟩⟩

open Classical in
/-- What is reported at a place after lexemes that start an expression: that an operand is
missing where a number could come next, or else that input is left over after an expression, or
else that a parenthesis has to be closed. -/
noncomputable def report (xs : List Lexeme) (place : Place) (found : Option Lexeme) :
    SyntaxError :=
  if ∃ value, IsViable (xs ++ [.number value]) then .operandExpected place found
  else if IsExpression xs then .inputLeft place
  else .closingExpected place

theorem place_report (xs : List Lexeme) (place : Place) (found : Option Lexeme) :
    (report xs place found).place = place := by
  unfold report
  split
  · rfl
  · split
    · rfl
    · rfl

section Stop

variable {xs : List Lexeme} {r : Reader}

theorem report_of_operand (hread : Reader.start.feed xs = some r)
    (hfocus : r.focus = .operand) (place : Place) (found : Option Lexeme) :
    report xs place found = .operandExpected place found :=
  if_pos ⟨.zero false, (isViable_number_iff hread _).mpr hfocus⟩

open Classical in
theorem report_of_not_operand (hread : Reader.start.feed xs = some r)
    (hfocus : r.focus ≠ .operand) (place : Place) (found : Option Lexeme) :
    report xs place found =
      if IsExpression xs then .inputLeft place else .closingExpected place := by
  refine if_neg ?_
  rintro ⟨value, hvalue⟩
  exact hfocus ((isViable_number_iff hread value).mp hvalue)

/-- A reader that is finished before a lexeme reports input that is left over. -/
theorem report_of_finished (hread : Reader.start.feed xs = some r) {x : Option Lexeme}
    {e : Expr} (hend : r.next x = .finished e) (place : Place) (found : Option Lexeme) :
    report xs place found = .inputLeft place := by
  obtain ⟨hcoherent, -⟩ := coherent_feed coherent_start hread
  obtain ⟨hfocus, hatEnd⟩ := atEnd_of_finished hcoherent hend
  have hwhole : IsExpression xs := (isExpression_iff_atEnd hread).mpr ⟨e, hatEnd⟩
  rw [report_of_not_operand hread hfocus, if_pos hwhole]

/-- A reader that refuses a lexeme, or the end of the input, reports its refusal. -/
theorem report_of_refused (hread : Reader.start.feed xs = some r) {x : Option Lexeme}
    {refusal : Refusal} (hstop : r.next x = .refused refusal) (tokens : List Token)
    (offset : Nat) :
    report xs (placeAt tokens offset) (tokens[offset]?.map Token.lexeme) =
      refusal.error tokens offset := by
  obtain ⟨hcoherent, -⟩ := coherent_feed coherent_start hread
  rcases next_cases hcoherent x with ⟨r', htaken⟩ | ⟨hfocus, hrefused⟩ | ⟨hfocus, hsame⟩
  · simp [htaken] at hstop
  · rw [hrefused, Advance.refused.injEq] at hstop
    rw [report_of_operand hread hfocus, ← hstop]
    rfl
  · rw [hsame] at hstop
    rcases atEnd_cases r with ⟨hoperand, -⟩ | ⟨-, ⟨e, hend⟩ | hclosing⟩
    · exact absurd hoperand hfocus
    · simp [hend] at hstop
    · have hpart : ¬IsExpression xs := by
        rw [isExpression_iff_atEnd hread]
        simp [hclosing]
      rw [hclosing, Advance.refused.injEq] at hstop
      rw [report_of_not_operand hread hfocus, if_neg hpart, ← hstop]
      rfl

end Stop

end Calculator.Expr
