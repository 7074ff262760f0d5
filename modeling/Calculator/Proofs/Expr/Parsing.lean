/-
  Calculator/Proofs/Expr/Parsing.lean
  ===================================
  **What the parser gives.**  The procedures of the parser are safe on every list of
  tokens and from every offset, and come to an end.  Where the call stack is not
  used up they read what the grammar spells, one expression at the most, and an
  error stands at the first token that no expression goes on with.
-/
import Calculator.Proofs.Expr.Limit
import Calculator.Session

namespace Calculator.Expr

/-! ### Safety and termination -/

/-- **The descent is safe and ends.**  From every offset of every list of tokens, also from one
past the end, the descent comes to an end in a tree or in one of the declared errors, which is
what the reader of the grammar gives; within a room it ends too, with the same, or where it is
refused as too deep.  On the way a token is taken only where there is one, the offset never goes
back and never beyond the last token unless it was there at the start, and whenever a procedure
has led to itself, or to one that stands no later in the grammar, a token has been taken in
between. -/
theorem descent_safe (tokens : List Token) (p : Nat) :
    (∃ d, (Descent.start p).Leads tokens d ∧
      d.result? none tokens = some (parseFrom none tokens p) ∧
      ∀ d', (Descent.start p).Leads tokens d' → d'.Leads tokens d) ∧
    parseFrom none tokens p = readFrom tokens p ∧
    (∀ room, ∃ d, (Descent.start p).Leads tokens d ∧
      d.result? room tokens = some (parseFrom room tokens p)) ∧
    (∀ room, parseFrom room tokens p = parseFrom none tokens p ∨
      ∃ q, p ≤ q ∧ q ≤ max p tokens.length ∧
        parseFrom room tokens p = .error (.tooDeep (placeAt tokens q))) ∧
    ∀ d, (Descent.start p).Leads tokens d →
      (∀ next, d.body = .takes next → d.offset < tokens.length) ∧
      (p ≤ d.offset ∧ d.offset ≤ max p tokens.length) ∧
      (∀ d', d.Leads tokens d' → d.offset ≤ d'.offset) ∧
      d.activations.Pairwise fun inner outer =>
        inner.procedure.rank ≤ outer.procedure.rank → outer.start < inner.start := by
  refine ⟨?_, parseFrom_none tokens p, ?_, ?_, ?_⟩
  · obtain ⟨d, hleads, hresult⟩ := exists_end none tokens p
    exact ⟨d, hleads, hresult, fun d' => Descent.leads_end hleads hresult⟩
  · exact fun room => exists_end room tokens p
  · intro room
    rw [parseFrom_none]
    exact parseFrom_limit room tokens p
  · intro d hleads
    have hkeeps := (Descent.keeps_safety tokens p).leads (isKept_safety tokens)
      (fun _ _ => trivial) hleads
    refine ⟨?_, Descent.offset_leads hleads, fun d' hleads' => (Descent.offset_leads hleads').1, ?_⟩
    · intro next hbody
      have hmeets := hkeeps.body
      rw [hbody] at hmeets
      exact hmeets.1
    · refine hkeeps.pairwise.imp ?_
      intro inner outer hprecedes hrank
      rcases hprecedes with hlt | ⟨-, hlater⟩
      · exact hlt
      · exact absurd hlater (Nat.not_lt.mpr hrank)

/-- The tokens of `f(x =`. -/
def openCall : List Token := [
  ⟨.identifier "f", 0, 1⟩, ⟨.symbol .leftParen, 1, 2⟩, ⟨.identifier "x", 2, 3⟩,
  ⟨.symbol .assign, 4, 5⟩]

/-- The value of the assignment is missed at the end of the tokens, after both tokens of the call
and both tokens of the assignment have been taken; past the end nothing is taken. -/
theorem descent_openCall :
    (∃ d, (Descent.start 0).Leads openCall d ∧
      d.result? none openCall = some (.error (.operandExpected ⟨4, 5⟩ none)) ∧ d.offset ≤ 4) ∧
    ∃ d, (Descent.start 9).Leads openCall d ∧
      d.result? none openCall = some (.error (.operandExpected ⟨9, 5⟩ none)) ∧ d.offset = 9 := by
  constructor
  · obtain ⟨⟨d, hleads, hresult, -⟩, hread, -, -, hsafe⟩ := descent_safe openCall 0
    obtain ⟨-, ⟨-, hbound⟩, -⟩ := hsafe d hleads
    exact ⟨d, hleads, hresult.trans (congrArg some (hread.trans rfl)), hbound⟩
  · obtain ⟨⟨d, hleads, hresult, -⟩, hread, -, -, hsafe⟩ := descent_safe openCall 9
    obtain ⟨-, ⟨hstart, hbound⟩, -⟩ := hsafe d hleads
    exact ⟨d, hleads, hresult.trans (congrArg some (hread.trans rfl)),
      Nat.le_antisymm hbound hstart⟩

/-! ### The language of the parser -/

section Language

variable [CallStack] {tokens : List Token} {e : Expr}

theorem wellFormed_of_parse (h : parse tokens = .ok e) :
    e.isWellFormed = true ∧ e.spelling = tokens.map Token.lexeme := by
  rcases parse_limit tokens with ⟨place, hdeep⟩ | hsame
  · simp [hdeep] at h
  · exact wellFormed_of_readWhole (hsame ▸ h)

/-- The spelling of a well-formed expression is read as the expression, or refused as too deep. -/
theorem parse_of_spelling (hwf : e.isWellFormed = true)
    (hspelling : e.spelling = tokens.map Token.lexeme) :
    (∃ place, parse tokens = .error (.tooDeep place)) ∨ parse tokens = .ok e := by
  rcases parse_limit tokens with hdeep | hsame
  · exact Or.inl hdeep
  · exact Or.inr (hsame.trans (readWhole_of_spelling hwf hspelling))

/-- A source of at most 120 tokens is read as the reader of the grammar reads it. -/
theorem readSource_of_short {source : String} (htokens : tokenize source = .ok tokens)
    (hshort : tokens.length ≤ 120) (hwhole : readWhole tokens = .ok e) :
    readSource source = .ok (tokens, e) :=
  readSource_eq_ok_iff.mpr ⟨htokens, (parse_of_short hshort).trans hwhole⟩

end Language

/-- **The reader accepts exactly the grammar.**  A list of tokens that is not refused as too
deep is read as an expression if and only if the expression is well formed and the tokens are
its spelling; it is refused if and only if no well-formed expression has this spelling.  No two
well-formed expressions of any depth share a spelling. -/
theorem parse_iff_spelling [CallStack] (tokens : List Token)
    (hdepth : ∀ place, parse tokens ≠ .error (.tooDeep place)) :
    (∀ e, parse tokens = .ok e ↔
      e.isWellFormed = true ∧ e.spelling = tokens.map Token.lexeme) ∧
    ((∃ why, parse tokens = .error why) ↔
      ¬∃ e : Expr, e.isWellFormed = true ∧ e.spelling = tokens.map Token.lexeme) ∧
    ∀ d e : Expr, d.isWellFormed = true → e.isWellFormed = true → d.spelling = e.spelling →
      d = e := by
  have hiff : ∀ e, parse tokens = .ok e ↔
      e.isWellFormed = true ∧ e.spelling = tokens.map Token.lexeme := by
    intro e
    constructor
    · exact wellFormed_of_parse
    · rintro ⟨hwf, hspelling⟩
      rcases parse_of_spelling hwf hspelling with ⟨place, hdeep⟩ | hok
      · exact absurd hdeep (hdepth place)
      · exact hok
  refine ⟨hiff, ?_, fun d e => eq_of_spelling_eq⟩
  constructor
  · rintro ⟨why, hwhy⟩ ⟨e, he⟩
    rw [(hiff e).mpr he] at hwhy
    simp at hwhy
  · intro hnone
    cases hparse : parse tokens with
    | error why => exact ⟨why, rfl⟩
    | ok e => exact absurd ⟨e, (hiff e).mp hparse⟩ hnone

/-- The lexemes of `-x ^ y ^ f(x = y, z) - z`. -/
def signedPowers : List Lexeme := [
  .symbol .minus, .identifier "x", .symbol .caret, .identifier "y", .symbol .caret,
  .identifier "f", .symbol .leftParen, .identifier "x", .symbol .assign, .identifier "y",
  .symbol .comma, .identifier "z", .symbol .rightParen, .symbol .minus, .identifier "z"]

section Unused

attribute [local instance] CallStack.unused

/-- A sign binds more tightly than a power, powers associate to the right, and the difference
is the outermost operation. -/
theorem parse_signedPowers :
    (∀ place, parse (signedPowers.map fun x => ⟨x, 0, 0⟩) ≠ .error (.tooDeep place)) ∧
      parse (signedPowers.map fun x => ⟨x, 0, 0⟩) =
        .ok (.binary .sub
          (.binary .pow (.unary .minus (.identifier "x"))
            (.binary .pow (.identifier "y")
              (.call "f" [.assign .assign "x" (.identifier "y"), .identifier "z"])))
          (.identifier "z")) := by
  have hdepth : ∀ place,
      parse (signedPowers.map fun x => ⟨x, 0, 0⟩) ≠ .error (.tooDeep place) := by
    rw [parse_of_short (by decide)]
    nofun
  obtain ⟨hok, -⟩ := parse_iff_spelling (signedPowers.map fun x => ⟨x, 0, 0⟩) hdepth
  exact ⟨hdepth, (hok _).mpr ⟨by decide, rfl⟩⟩

end Unused

/-! ### Errors of the parser -/

/-- **A syntax error points at the first impossible token.**  The tokens before it start an
expression, and with it they start none; at the end of the input the tokens are no expression.
What is reported there is decided by the tokens before it, and the column is where the token
starts, or where the last token ends. -/
theorem parse_error_first_impossible [CallStack] (tokens : List Token) (why : SyntaxError)
    (h : parse tokens = .error why) (hdepth : ∀ place, why ≠ .tooDeep place) :
    ∃ p column, p ≤ tokens.length ∧ IsViable ((tokens.take p).map Token.lexeme) ∧
      (p < tokens.length → ¬IsViable ((tokens.take (p + 1)).map Token.lexeme)) ∧
      (p = tokens.length → ¬IsExpression (tokens.map Token.lexeme)) ∧
      why = report ((tokens.take p).map Token.lexeme) ⟨p, column⟩ (tokens[p]?.map Token.lexeme) ∧
      (∀ token, tokens[p]? = some token → column = token.start) ∧
      (p = tokens.length → column = (tokens.getLast?.map Token.stop).getD 0) := by
  have hwhole : readWhole tokens = .error why := by
    rcases parse_limit tokens with ⟨place, hdeep⟩ | hsame
    · rw [h] at hdeep
      exact absurd (Except.error.inj hdeep) (hdepth place)
    · exact hsame ▸ h
  obtain ⟨read, rest, r, htokens, hread, hstop⟩ := stop_of_readWhole hwhole
  have htake : tokens.take read.length = read := by rw [htokens, List.take_left]
  refine ⟨read.length, (placeAt tokens read.length).column, ?_, ?_, ?_, ?_, ?_, ?_, ?_⟩
  · simp [htokens]
  · rw [htake]
    exact isViable_iff.mpr ⟨r, hread⟩
  · intro hlt
    cases rest with
    | nil => simp [htokens] at hlt
    | cons token rest =>
      have hsnoc : tokens.take (read.length + 1) = read ++ [token] := by
        rw [htokens, List.append_cons, List.take_left' (by simp)]
      rw [hsnoc, List.map_append, List.map_singleton, isViable_concat_iff hread]
      rintro ⟨r', hstep⟩
      have hnext : r.next (some token.lexeme) = .taken r' := hstep
      rcases hstop with ⟨e, hend, -⟩ | ⟨refusal, hrefused, -⟩
      · simp [hnext] at hend
      · simp [hnext] at hrefused
  · intro hlength hexpression
    have hrest : rest = [] := by
      rw [htokens, List.length_append] at hlength
      exact List.length_eq_zero_iff.mp (by omega)
    subst hrest
    rw [htokens, List.append_nil] at hexpression
    obtain ⟨e, hend⟩ := (isExpression_iff_atEnd hread).mp hexpression
    rcases hstop with ⟨-, -, hne, -⟩ | ⟨refusal, hrefused, -⟩
    · exact hne rfl
    · have hrefused' : r.atEnd = .refused refusal := hrefused
      simp [hend] at hrefused'
  · rw [htake]
    rcases hstop with ⟨e, hend, -, hwhy⟩ | ⟨refusal, hrefused, hwhy⟩
    · exact hwhy.trans (report_of_finished hread hend _ _).symm
    · exact hwhy.trans (report_of_refused hread hrefused tokens _).symm
  · intro token htoken
    simp [placeAt, htoken]
  · intro hlength
    simp [placeAt, hlength]

/-- The tokens of `f(x = 0, 0 y`. -/
def missingComma : List Token := [
  ⟨.identifier "f", 0, 1⟩, ⟨.symbol .leftParen, 1, 2⟩, ⟨.identifier "x", 2, 3⟩,
  ⟨.symbol .assign, 4, 5⟩, ⟨.number (.zero false), 6, 7⟩, ⟨.symbol .comma, 7, 8⟩,
  ⟨.number (.zero false), 9, 10⟩, ⟨.identifier "y", 11, 12⟩]

section Unused

attribute [local instance] CallStack.unused

/-- The call could be closed before the last name, which no expression goes on with. -/
theorem parse_missingComma :
    parse missingComma = .error (.closingExpected ⟨7, 11⟩) ∧
      (∀ place, SyntaxError.closingExpected ⟨7, 11⟩ ≠ .tooDeep place) ∧
      IsViable ((missingComma.take 7).map Token.lexeme) ∧
      ¬IsViable (missingComma.map Token.lexeme) := by
  have hparse : parse missingComma = .error (.closingExpected ⟨7, 11⟩) :=
    parse_of_short (by decide)
  have hdepth : ∀ place, SyntaxError.closingExpected ⟨7, 11⟩ ≠ .tooDeep place := by simp
  obtain ⟨p, column, -, hviable, hstops, -, hwhy, -⟩ :=
    parse_error_first_impossible missingComma _ hparse hdepth
  have hplace : (⟨7, 11⟩ : Place) = ⟨p, column⟩ :=
    (congrArg SyntaxError.place hwhy).trans (place_report _ _ _)
  obtain ⟨rfl, rfl⟩ := Place.mk.inj hplace
  exact ⟨hparse, hdepth, hviable, hstops (by decide)⟩

end Unused

end Calculator.Expr
