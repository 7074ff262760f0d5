/-
  Calculator/Proofs/Expr/Reading.lean
  ===================================
  **What a reader has read.**  The open constructs and the focus of a reader
  spell out the lexemes that it has taken, every open construct stands in a place
  of the one around it, and an operand that has ended is well formed and binds as
  tightly as a signed expression.  All of this holds at the start, and each step
  keeps it.  A reader that is finished has nothing open, so the expression is
  well formed and its spelling is what has been read.

  The steps are listed first, by what they do to the open constructs.
-/
import Calculator.Proofs.Expr.Frame

namespace Calculator.Expr

/-! ### The steps -/

/-- The token after an operand opens a binary operation, closes a parenthesis, closes a call,
goes on to the next argument of a call, or comes after the end of the expression. -/
theorem afterOperand_cases {frames : List Frame} (e : Expr) (x : Lexeme)
    (hsettled : Settled .unary frames) :
    (∃ op : BinaryOp, x = .symbol op.symbol ∧
      afterOperand frames e x =
        opened (.ofBinary op (settle op.leftLevel frames e).2)
          (settle op.leftLevel frames e).1) ∨
    (∃ rest body, x = .symbol .rightParen ∧
      settle .assignment frames e = (.paren :: rest, body) ∧
      afterOperand frames e x = completed rest (.group body)) ∨
    (∃ name done rest last, x = .symbol .rightParen ∧
      settle .assignment frames e = (.call name done :: rest, last) ∧
      afterOperand frames e x = completed rest (.call name (last :: done).reverse)) ∨
    (∃ name done rest last, x = .symbol .comma ∧
      settle .assignment frames e = (.call name done :: rest, last) ∧
      afterOperand frames e x = .taken ⟨.call name (last :: done) :: rest, .operand⟩) ∨
    afterOperand frames e x = concluded frames e := by
  unfold afterOperand
  split
  · left
    have hpow : settle .unary frames e = (frames, e) := settle_of_settled hsettled e
    exact ⟨.pow, rfl, by simp only [BinaryOp.leftLevel, hpow, Frame.ofBinary]⟩
  · split
    · next rest body hs => exact Or.inr (Or.inl ⟨rest, body, rfl, hs, rfl⟩)
    · next name done rest last hs =>
      exact Or.inr (Or.inr (Or.inl ⟨name, done, rest, last, rfl, hs, rfl⟩))
    · exact Or.inr (Or.inr (Or.inr (Or.inr rfl)))
  · split
    · next name done rest last hs =>
      exact Or.inr (Or.inr (Or.inr (Or.inl ⟨name, done, rest, last, rfl, hs, rfl⟩)))
    · exact Or.inr (Or.inr (Or.inr (Or.inr rfl)))
  · split
    · next op hop =>
      obtain ⟨rfl, hlevel⟩ := eq_symbol_of_sumOp? hop
      left
      refine ⟨op, rfl, ?_⟩
      cases op <;> simp_all [BinaryOp.level, BinaryOp.leftLevel, Frame.ofBinary]
    · next op _ hop =>
      obtain ⟨rfl, hlevel⟩ := eq_symbol_of_productOp? hop
      left
      refine ⟨op, rfl, ?_⟩
      cases op <;> simp_all [BinaryOp.level, BinaryOp.leftLevel, Frame.ofBinary]
    · exact Or.inr (Or.inr (Or.inr (Or.inr rfl)))
  · exact Or.inr (Or.inr (Or.inr (Or.inr rfl)))

/-- The token where an operand has to start is a number, a name, a parenthesis, the end of a
call without arguments, a unary operator, or refused. -/
theorem atOperand_cases (frames : List Frame) (x : Lexeme) :
    (∃ value, x = .number value ∧ atOperand frames x = completed frames (.number value)) ∨
    (∃ name, x = .identifier name ∧ atOperand frames x = .taken ⟨frames, .named name⟩) ∨
    (x = .symbol .leftParen ∧ atOperand frames x = opened .paren frames) ∨
    (∃ name rest, x = .symbol .rightParen ∧ frames = .call name [] :: rest ∧
      atOperand frames x = completed rest (.call name [])) ∨
    (∃ op : UnaryOp, x = .symbol op.symbol ∧
      atOperand frames x = opened (.unary op) frames) ∨
    atOperand frames x = .refused .operandExpected := by
  unfold atOperand
  split
  · next value => exact Or.inl ⟨value, rfl, rfl⟩
  · next name => exact Or.inr (Or.inl ⟨name, rfl, rfl⟩)
  · exact Or.inr (Or.inr (Or.inl ⟨rfl, rfl⟩))
  · split
    · next name rest => exact Or.inr (Or.inr (Or.inr (Or.inl ⟨name, rest, rfl, rfl, rfl⟩)))
    · exact Or.inr (Or.inr (Or.inr (Or.inr (Or.inr rfl))))
  · split
    · next op hop =>
      obtain rfl := eq_symbol_of_unaryOp? hop
      exact Or.inr (Or.inr (Or.inr (Or.inr (Or.inl ⟨op, rfl, rfl⟩))))
    · exact Or.inr (Or.inr (Or.inr (Or.inr (Or.inr rfl))))

/-- The token after a name opens a call or an assignment, or the name is an operand and the
token comes after it. -/
theorem afterName_cases (frames : List Frame) (name : String)
    (x : Lexeme) :
    (x = .symbol .leftParen ∧
      afterName frames name x = opened (.call name []) frames) ∨
    (∃ op : AssignOp, x = .symbol op.symbol ∧ admitsAssignment frames = true ∧
      afterName frames name x = opened (.assign op name) frames) ∨
    afterName frames name x =
      afterOperand (settle .unary frames (.identifier name)).1
        (settle .unary frames (.identifier name)).2 x := by
  unfold afterName
  rcases settle .unary frames (.identifier name) with ⟨frames', e⟩
  dsimp only
  split
  · exact Or.inl ⟨rfl, rfl⟩
  · split
    · next op hop =>
      obtain rfl := eq_symbol_of_assignOp? hop
      split
      · next hadmits => exact Or.inr (Or.inl ⟨op, rfl, hadmits, rfl⟩)
      · exact Or.inr (Or.inr rfl)
    · exact Or.inr (Or.inr rfl)
  · exact Or.inr (Or.inr rfl)

theorem eq_of_opened_eq_taken {frame : Frame} {frames : List Frame} {r : Reader}
    (h : opened frame frames = .taken r) : r = ⟨frame :: frames, .operand⟩ :=
  (Advance.taken.inj h).symm

theorem opened_ne_finished (frame : Frame) (frames : List Frame) (e : Expr) :
    opened frame frames ≠ .finished e := by
  simp [opened]

theorem settle_of_concluded {frames : List Frame} {e whole : Expr}
    (h : concluded frames e = .finished whole) : settle .assignment frames e = ([], whole) := by
  unfold concluded at h
  split at h
  · next e' hs =>
    simp only [Advance.finished.injEq] at h
    rw [← h, hs]
  · simp at h

/-! ### What is kept -/

/-- The lexemes of the focus of a reader. -/
def Focus.spelling : Focus → List Lexeme
  | .operand => []
  | .named name => [.identifier name]
  | .ended e => e.spelling

/-- The lexemes that a reader has taken. -/
def Reader.spelling (r : Reader) : List Lexeme := openSpelling r.frames ++ r.focus.spelling

/-- A reader whose open constructs stand in places of each other, and whose operand, if it has
ended, is a well-formed signed expression with no unary operator left open before it. -/
structure Reader.Coherent (r : Reader) : Prop where
  nested : Nested r.frames
  ended : ∀ e, r.focus = .ended e →
    e.isWellFormed = true ∧ .unary ≤ e.level ∧ Settled .unary r.frames

theorem coherent_start : Reader.start.Coherent :=
  ⟨trivial, fun e h => by simp [Reader.start] at h⟩

theorem coherent_opened {frame : Frame} {frames : List Frame} {r : Reader}
    (h : opened frame frames = .taken r) (hnested : Nested (frame :: frames)) :
    r.Coherent ∧ r.spelling = openSpelling frames ++ frame.spelling := by
  obtain rfl := eq_of_opened_eq_taken h
  exact ⟨⟨hnested, fun e he => by simp at he⟩, by simp [Reader.spelling, Focus.spelling]⟩

theorem coherent_completed {frames : List Frame} {e : Expr} {r : Reader}
    (h : completed frames e = .taken r) (hnested : Nested frames) (hwf : e.isWellFormed = true)
    (hlevel : .unary ≤ e.level) :
    r.Coherent ∧ r.spelling = openSpelling frames ++ e.spelling := by
  simp only [completed, Advance.taken.injEq] at h
  subst h
  have hplaced : Placed frames e := ⟨hnested, hwf, Level.le_trans (Level.le_unary _) hlevel⟩
  obtain ⟨hsettle, hunary⟩ := placed_settle hplaced hlevel
  refine ⟨⟨hsettle.nested, ?_⟩, spelling_settle .unary frames e⟩
  intro e' he'
  simp only [Focus.ended.injEq] at he'
  subst he'
  exact ⟨hsettle.wellFormed, hunary, settled_settle .unary frames e⟩

theorem placed_of_ended {frames : List Frame} {e : Expr}
    (h : Reader.Coherent ⟨frames, .ended e⟩) : Placed frames e := by
  obtain ⟨hwf, hlevel, -⟩ := h.ended e rfl
  exact ⟨h.nested, hwf, Level.le_trans (Level.le_unary _) hlevel⟩

theorem coherent_named {frames : List Frame} (hnested : Nested frames) (name : String) :
    Reader.Coherent ⟨(settle .unary frames (.identifier name)).1,
      .ended (settle .unary frames (.identifier name)).2⟩ :=
  (coherent_completed (e := .identifier name) rfl hnested rfl (Level.le_refl _)).1

/-- The token after an operand that is taken keeps the reader coherent. -/
theorem coherent_afterOperand {frames : List Frame} {e : Expr}
    {x : Lexeme} {r : Reader} (h : Reader.Coherent ⟨frames, .ended e⟩)
    (hstep : afterOperand frames e x = .taken r) :
    r.Coherent ∧ r.spelling = openSpelling frames ++ e.spelling ++ [x] := by
  have hplaced := placed_of_ended h
  obtain ⟨hwf, hunary, hsettled⟩ := h.ended e rfl
  obtain ⟨hdown, -⟩ := placed_settle hplaced (Level.assignment_le e.level)
  have hspelling := spelling_settle .assignment frames e
  rcases afterOperand_cases e x hsettled with ⟨op, rfl, heq⟩ | ⟨rest, body, rfl, hs, heq⟩ |
    ⟨name, done, rest, last, rfl, hs, heq⟩ | ⟨name, done, rest, last, rfl, hs, heq⟩ | heq
  · -- a binary operation opens around what its left operand closes
    rw [heq] at hstep
    obtain ⟨hleft, hlevel⟩ :=
      placed_settle hplaced (Level.le_trans (Level.le_unary op.leftLevel) hunary)
    have hhole := (settled_leftLevel_iff op _).mp (settled_settle op.leftLevel frames e)
    have hnested : Nested (.ofBinary op (settle op.leftLevel frames e).2 ::
        (settle op.leftLevel frames e).1) :=
      ⟨Frame.isWellFormed_ofBinary hleft.wellFormed hlevel, by simpa using hhole, hleft.nested⟩
    obtain ⟨hcoherent, hread⟩ := coherent_opened hstep hnested
    refine ⟨hcoherent, ?_⟩
    rw [hread, Frame.spelling_ofBinary, ← List.append_assoc, spelling_settle]
  · -- a parenthesis closes
    rw [heq] at hstep
    rw [hs] at hdown hspelling
    obtain ⟨hcoherent, hread⟩ := coherent_completed (e := .group body) hstep hdown.nested.2.2
      hdown.wellFormed (Level.le_refl _)
    refine ⟨hcoherent, ?_⟩
    rw [hread, ← hspelling]
    simp [Frame.spelling, Expr.spelling]
  · -- a call closes after its last argument
    rw [heq] at hstep
    rw [hs] at hdown hspelling
    have hdone : areWellFormed done = true := hdown.nested.1
    have hargs : areWellFormed (last :: done).reverse = true := by
      rw [areWellFormed_iff] at hdone ⊢
      intro d hd
      rcases List.mem_cons.mp (List.mem_reverse.mp hd) with rfl | hd
      · exact hdown.wellFormed
      · exact hdone d hd
    obtain ⟨hcoherent, hread⟩ := coherent_completed (e := .call name (last :: done).reverse)
      hstep hdown.nested.2.2 hargs (Level.le_refl _)
    refine ⟨hcoherent, ?_⟩
    rw [hread, ← hspelling]
    simp [Frame.spelling, Expr.spelling, spellings_concat]
  · -- a call goes on to its next argument
    rw [heq] at hstep
    rw [hs] at hdown hspelling
    obtain ⟨hdone, hhole, hrest⟩ := hdown.nested
    have hargs : areWellFormed (last :: done) = true := by
      simp only [areWellFormed, hdown.wellFormed, Bool.true_and]
      exact hdone
    simp only [Advance.taken.injEq] at hstep
    subst hstep
    refine ⟨⟨⟨hargs, hhole, hrest⟩, fun e he => by simp at he⟩, ?_⟩
    rw [← hspelling]
    simp [Reader.spelling, Focus.spelling, Frame.spelling]
  · rw [heq] at hstep
    exact absurd hstep (concluded_ne_taken _ _ _)

/-- A token that is taken keeps the reader coherent and is added to what has been read. -/
theorem coherent_advance {r r' : Reader} {x : Lexeme} (h : r.Coherent)
    (hstep : r.advance x = .taken r') :
    r'.Coherent ∧ r'.spelling = r.spelling ++ [x] := by
  obtain ⟨frames, focus⟩ := r
  have hnested : Nested frames := h.nested
  cases focus with
  | operand =>
    have hstep' : atOperand frames x = .taken r' := hstep
    have hread : Reader.spelling ⟨frames, .operand⟩ = openSpelling frames := by
      simp [Reader.spelling, Focus.spelling]
    rw [hread]
    rcases atOperand_cases frames x with ⟨value, rfl, heq⟩ | ⟨name, rfl, heq⟩ |
      ⟨rfl, heq⟩ | ⟨name, rest, rfl, rfl, heq⟩ | ⟨op, rfl, heq⟩ | heq
    · rw [heq] at hstep'
      exact coherent_completed hstep' hnested rfl (Level.le_refl _)
    · rw [heq] at hstep'
      simp only [Advance.taken.injEq] at hstep'
      subst hstep'
      exact ⟨⟨hnested, fun e he => by simp at he⟩, rfl⟩
    · rw [heq] at hstep'
      exact coherent_opened hstep' ⟨rfl, Level.le_unary _, hnested⟩
    · rw [heq] at hstep'
      obtain ⟨hcoherent, hspelling⟩ := coherent_completed (e := .call name []) hstep' hnested.2.2
        rfl (Level.le_refl _)
      refine ⟨hcoherent, ?_⟩
      rw [hspelling]
      simp [Frame.spelling, Expr.spelling, spellings]
    · rw [heq] at hstep'
      exact coherent_opened hstep' ⟨rfl, Level.le_unary _, hnested⟩
    · rw [heq] at hstep'
      simp at hstep'
  | named name =>
    have hstep' : afterName frames name x = .taken r' := hstep
    have hread : Reader.spelling ⟨frames, .named name⟩
        = openSpelling frames ++ (Expr.identifier name).spelling := rfl
    rw [hread]
    rcases afterName_cases frames name x with ⟨rfl, heq⟩ | ⟨op, rfl, hadmits, heq⟩ | heq
    · rw [heq] at hstep'
      obtain ⟨hcoherent, hspelling⟩ :=
        coherent_opened hstep' ⟨rfl, Level.le_unary _, hnested⟩
      refine ⟨hcoherent, ?_⟩
      rw [hspelling]
      simp [Frame.spelling, Expr.spelling]
    · rw [heq] at hstep'
      obtain ⟨hcoherent, hspelling⟩ :=
        coherent_opened hstep' ⟨rfl, (admitsAssignment_iff frames).mp hadmits, hnested⟩
      refine ⟨hcoherent, ?_⟩
      rw [hspelling]
      simp [Frame.spelling, Expr.spelling]
    · rw [heq] at hstep'
      rw [← spelling_settle .unary frames (.identifier name)]
      exact coherent_afterOperand (coherent_named hnested name) hstep'
  | ended e => exact coherent_afterOperand h hstep

/-- Every reader of a run is coherent and has read the lexemes of the run. -/
theorem coherent_feed {r r' : Reader} {xs : List Lexeme} (h : r.Coherent)
    (hread : r.feed xs = some r') : r'.Coherent ∧ r'.spelling = r.spelling ++ xs := by
  induction xs generalizing r with
  | nil =>
    simp only [Reader.feed, Option.some.injEq] at hread
    subst hread
    exact ⟨h, by simp⟩
  | cons x rest ih =>
    simp only [Reader.feed] at hread
    split at hread
    · next r'' hstep =>
      obtain ⟨hcoherent, hspelling⟩ := coherent_advance h hstep
      obtain ⟨hcoherent', hspelling'⟩ := ih hcoherent hread
      refine ⟨hcoherent', ?_⟩
      rw [hspelling', hspelling]
      simp
    · simp at hread

/-! ### The end -/

theorem wellFormed_of_concluded {frames : List Frame} {e whole : Expr}
    (h : Placed frames e) (hend : concluded frames e = .finished whole) :
    whole.isWellFormed = true ∧ whole.spelling = openSpelling frames ++ e.spelling := by
  have hs := settle_of_concluded hend
  obtain ⟨hdown, -⟩ := placed_settle h (Level.assignment_le e.level)
  have hspelling := spelling_settle .assignment frames e
  rw [hs] at hdown hspelling
  exact ⟨hdown.wellFormed, by simpa using hspelling⟩

theorem wellFormed_of_afterOperand {frames : List Frame} {e whole : Expr}
    {x : Lexeme} (h : Reader.Coherent ⟨frames, .ended e⟩)
    (hend : afterOperand frames e x = .finished whole) :
    whole.isWellFormed = true ∧ whole.spelling = openSpelling frames ++ e.spelling := by
  obtain ⟨-, -, hsettled⟩ := h.ended e rfl
  rcases afterOperand_cases e x hsettled with ⟨op, rfl, heq⟩ | ⟨rest, body, rfl, hs, heq⟩ |
    ⟨name, done, rest, last, rfl, hs, heq⟩ | ⟨name, done, rest, last, rfl, hs, heq⟩ | heq
  · exact absurd (heq ▸ hend) (opened_ne_finished _ _ _)
  · rw [heq] at hend
    simp [completed] at hend
  · rw [heq] at hend
    simp [completed] at hend
  · rw [heq] at hend
    simp at hend
  · exact wellFormed_of_concluded (placed_of_ended h) (heq ▸ hend)

/-- A reader that is finished has read a well-formed expression and nothing else. -/
theorem wellFormed_of_finished {r : Reader} {x : Option Lexeme} {e : Expr}
    (h : r.Coherent) (hend : r.next x = .finished e) :
    e.isWellFormed = true ∧ e.spelling = r.spelling := by
  obtain ⟨frames, focus⟩ := r
  have hnested : Nested frames := h.nested
  cases focus with
  | operand =>
    cases x with
    | none => simp [Reader.next, Reader.atEnd] at hend
    | some x =>
      have hend' : atOperand frames x = .finished e := hend
      rcases atOperand_cases frames x with ⟨value, rfl, heq⟩ | ⟨name, rfl, heq⟩ |
        ⟨rfl, heq⟩ | ⟨name, rest, rfl, rfl, heq⟩ | ⟨op, rfl, heq⟩ | heq
      · simp [heq, completed] at hend'
      · simp [heq] at hend'
      · exact absurd (heq ▸ hend') (opened_ne_finished _ _ _)
      · simp [heq, completed] at hend'
      · exact absurd (heq ▸ hend') (opened_ne_finished _ _ _)
      · simp [heq] at hend'
  | named name =>
    cases x with
    | none =>
      have hplaced : Placed frames (.identifier name) := ⟨hnested, rfl, Level.le_unary _⟩
      exact wellFormed_of_concluded hplaced hend
    | some x =>
      have hend' : afterName frames name x = .finished e := hend
      rcases afterName_cases frames name x with ⟨rfl, heq⟩ | ⟨op, rfl, hadmits, heq⟩ | heq
      · exact absurd (heq ▸ hend') (opened_ne_finished _ _ _)
      · exact absurd (heq ▸ hend') (opened_ne_finished _ _ _)
      · obtain ⟨hwf, hspelling⟩ :=
          wellFormed_of_afterOperand (coherent_named hnested name) (heq ▸ hend')
        exact ⟨hwf, hspelling.trans (spelling_settle .unary frames (.identifier name))⟩
  | ended e' =>
    cases x with
    | none => exact wellFormed_of_concluded (placed_of_ended h) hend
    | some x => exact wellFormed_of_afterOperand h hend

/-- Tokens that have been read as an expression spell it, and it is well formed. -/
theorem wellFormed_of_readWhole {tokens : List Token} {e : Expr}
    (h : readWhole tokens = .ok e) :
    e.isWellFormed = true ∧ e.spelling = tokens.map Token.lexeme := by
  obtain ⟨r, hread, hend⟩ := readWhole_eq_ok_iff.mp h
  obtain ⟨hcoherent, hspelling⟩ := coherent_feed coherent_start hread
  have hnext : r.next none = .finished e := hend
  obtain ⟨hwf, hwhole⟩ := wellFormed_of_finished hcoherent hnext
  exact ⟨hwf, hwhole.trans hspelling⟩

end Calculator.Expr
