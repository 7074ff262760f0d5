/-
  Calculator/Proofs/Expr/Spelling.lean
  ====================================
  **Reading what a tree spells.**  A reader that waits for an operand takes the
  spelling of any well-formed tree that fits there.  It does not close the tree
  at once: after the spelling of a sum, say, the right operand may still grow
  into a product.  What holds at once is that the reader then treats every lexeme
  that can come after the tree, and the end of the input, as if the tree stood
  closed in its place.  This is what the induction over the tree carries.

  Together with what a reader has read, it says that reading and spelling are
  inverse to each other.
-/
import Calculator.Expr.Task
import Calculator.Proofs.Expr.Reading

namespace Calculator.Expr

/-! ### What may come after an operand -/

def binaryOp? (s : Symbol) : Option BinaryOp :=
  ((sumOp? s).or (productOp? s)).or (if s = .caret then some .pow else none)

@[simp] theorem binaryOp?_symbol (op : BinaryOp) : binaryOp? op.symbol = some op := by
  cases op <;> rfl

/-- The level down to which a lexeme after an operand, or the end of the input, closes open
constructs. -/
def closingLevel : Option Lexeme → Level
  | some (.symbol s) =>
    match binaryOp? s with
    | some op => op.leftLevel
    | none => .assignment
  | _ => .assignment

/-- Whether a lexeme after a name leaves the name an operand. -/
def endsOperand : Option Lexeme → Bool
  | some (.symbol s) => s != .leftParen && (assignOp? s).isNone
  | _ => true

/-- What a reader does after an operand that has ended, at a lexeme or at the end of the
input. -/
def after (p : List Frame × Expr) : Option Lexeme → Advance
  | none => concluded p.1 p.2
  | some x => afterOperand p.1 p.2 x

@[simp] theorem closingLevel_symbol (op : BinaryOp) :
    closingLevel (some (.symbol op.symbol)) = op.leftLevel := by
  simp [closingLevel]

@[simp] theorem endsOperand_symbol (op : BinaryOp) :
    endsOperand (some (.symbol op.symbol)) = true := by
  cases op <;> rfl

/-- A binary operator after an operand opens its operation around what the operand closes. -/
theorem afterOperand_symbol (op : BinaryOp) {frames : List Frame} (e : Expr)
    (hsettled : Settled .unary frames) :
    afterOperand frames e (.symbol op.symbol) =
      opened (.ofBinary op (settle op.leftLevel frames e).2)
        (settle op.leftLevel frames e).1 := by
  cases op with
  | pow =>
    have hpow : settle .unary frames e = (frames, e) := settle_of_settled hsettled e
    simp only [BinaryOp.leftLevel, hpow]
    rfl
  | _ => rfl

theorem concluded_settle (frames : List Frame) (e : Expr) :
    concluded (settle .assignment frames e).1 (settle .assignment frames e).2
      = concluded frames e := by
  simp only [concluded, settle_settle (Level.le_refl _)]

theorem eq_symbol_of_binaryOp? {s : Symbol} {op : BinaryOp} (h : binaryOp? s = some op) :
    s = op.symbol := by
  cases s <;> simp [binaryOp?, sumOp?, productOp?] at h <;> subst h <;> rfl

/-- A lexeme that is no binary operator finds the constructs closed down to an assignment. -/
theorem afterOperand_settle (frames : List Frame) (e : Expr) (x : Lexeme)
    (hx : ∀ op : BinaryOp, x ≠ .symbol op.symbol) :
    afterOperand (settle .assignment frames e).1 (settle .assignment frames e).2 x
      = afterOperand frames e x := by
  unfold afterOperand
  split
  · exact absurd rfl (hx .pow)
  · simp only [settle_settle (Level.le_refl _), concluded_settle]
  · simp only [settle_settle (Level.le_refl _), concluded_settle]
  · split
    · next op hop => exact absurd (congrArg Lexeme.symbol (eq_symbol_of_sumOp? hop).1) (hx op)
    · next op _ hop =>
      exact absurd (congrArg Lexeme.symbol (eq_symbol_of_productOp? hop).1) (hx op)
    · exact concluded_settle frames e
  · exact concluded_settle frames e

/-- What a reader does at a lexeme depends on the open constructs only through what is left of
them after closing down to the level of the lexeme. -/
theorem after_settle {frames : List Frame} (e : Expr)
    (hsettled : Settled .unary frames) (x : Option Lexeme) :
    after (settle (closingLevel x) frames e) x = after (frames, e) x := by
  cases x with
  | none => exact concluded_settle frames e
  | some x =>
    by_cases hx : ∃ op : BinaryOp, x = .symbol op.symbol
    · obtain ⟨op, rfl⟩ := hx
      have hdown : Settled .unary (settle op.leftLevel frames e).1 :=
        settled_of_le (Level.le_unary _) (settled_settle op.leftLevel frames e)
      simp only [after, closingLevel_symbol, afterOperand_symbol op _ hdown,
        afterOperand_symbol op _ hsettled, settle_settle (Level.le_refl _)]
    · have hlevel : closingLevel (some x) = .assignment := by
        cases x with
        | identifier name => rfl
        | number value => rfl
        | symbol s =>
          simp only [closingLevel]
          cases hs : binaryOp? s with
          | none => rfl
          | some op => exact absurd ⟨op, congrArg _ (eq_symbol_of_binaryOp? hs)⟩ hx
      rw [hlevel]
      exact afterOperand_settle frames e x fun op h => hx ⟨op, h⟩

/-! ### Trees that have been read -/

/-- A reader treats a lexeme after an expression, or the end of the input, as if the expression
stood closed inside the open constructs. -/
def Reader.EndsBefore (r : Reader) (frames : List Frame) (e : Expr) (x : Option Lexeme) : Prop :=
  r.next x = after (settle (closingLevel x) frames e) x

/-- A reader treats everything that can come after an expression as if the expression stood
closed inside the open constructs. -/
def Reader.Ends (r : Reader) (frames : List Frame) (e : Expr) : Prop :=
  ∀ x, endsOperand x = true → closingLevel x ≤ e.level →
    r.next x = after (settle (closingLevel x) frames e) x

/-- The reader after a primary expression. -/
def endedAt (frames : List Frame) (e : Expr) : Reader :=
  ⟨(settle .unary frames e).1, .ended (settle .unary frames e).2⟩

theorem after_settle_unary (frames : List Frame) (e : Expr)
    (x : Option Lexeme) :
    after (settle (closingLevel x) frames e) x = after (settle .unary frames e) x := by
  have hsettled := settled_settle .unary frames e
  rw [← settle_settle (Level.le_unary (closingLevel x))]
  exact after_settle _ hsettled x

theorem endsBefore_endedAt (frames : List Frame) (e : Expr) (x : Option Lexeme) :
    (endedAt frames e).EndsBefore frames e x := by
  rw [Reader.EndsBefore, after_settle_unary]
  cases x <;> rfl

theorem ends_endedAt (frames : List Frame) (e : Expr) : (endedAt frames e).Ends frames e :=
  fun x _ _ => endsBefore_endedAt frames e x

/-- A name is an operand before everything but a parenthesis and, where an assignment may start,
an assignment operator. -/
theorem endsBefore_named {frames : List Frame} {name : String} {x : Option Lexeme}
    (hparen : x ≠ some (.symbol .leftParen))
    (hassign : ∀ op : AssignOp, x = some (.symbol op.symbol) → admitsAssignment frames = false) :
    Reader.EndsBefore ⟨frames, .named name⟩ frames (.identifier name) x := by
  cases x with
  | none => exact (concluded_settle frames (.identifier name)).symm
  | some x =>
    rw [Reader.EndsBefore, after_settle_unary]
    rcases afterName_cases frames name x with ⟨rfl, heq⟩ | ⟨op, rfl, hadmits, heq⟩ | heq
    · exact absurd rfl hparen
    · rw [hassign op rfl] at hadmits
      cases hadmits
    · exact heq

theorem ends_named (frames : List Frame) (name : String) :
    Reader.Ends ⟨frames, .named name⟩ frames (.identifier name) := by
  intro x hx _
  apply endsBefore_named
  · rintro rfl
    simp [endsOperand] at hx
  · rintro op rfl
    simp [endsOperand] at hx

/-- The last operand of an operation ends the operation before what does not bind more tightly
than the operation. -/
theorem Reader.EndsBefore.close {r : Reader} {f : Frame} {frames : List Frame} {e whole : Expr}
    {x : Option Lexeme} (h : r.EndsBefore (f :: frames) e x)
    (hclose : f.close? e = some (f.level, whole)) (hbracket : f.isBracket = false)
    (hlevel : closingLevel x ≤ f.level) : r.EndsBefore frames whole x := by
  have hcloses : f.closesAt (closingLevel x) = true := Frame.closesAt_iff.mpr ⟨hbracket, hlevel⟩
  obtain ⟨whole', hsettle, hclose', -⟩ := settle_cons hcloses frames e
  have hsame : whole' = whole := by simpa [hclose] using hclose'.symm
  rw [Reader.EndsBefore, h, hsettle, hsame]

/-- The right operand of an operation ends the operation for everything that does not bind more
tightly than the operation. -/
theorem Reader.Ends.close {r : Reader} {f : Frame} {frames : List Frame} {e whole : Expr}
    (h : r.Ends (f :: frames) e) (hclose : f.close? e = some (f.level, whole))
    (hbracket : f.isBracket = false) (hlevel : whole.level = f.level)
    (hfits : f.level ≤ e.level) : r.Ends frames whole := by
  intro x hx hxlevel
  rw [hlevel] at hxlevel
  exact Reader.EndsBefore.close (h x hx (Level.le_trans hxlevel hfits)) hclose hbracket hxlevel

/-! ### Taking the spelling of a tree -/

/-- A reader that waits for an operand takes the spelling of an expression that fits there. -/
def Reads (e : Expr) : Prop :=
  ∀ frames, hole frames ≤ e.level →
    ∃ r, Reader.feed ⟨frames, .operand⟩ e.spelling = some r ∧ r.Ends frames e

theorem reads_number (value : Binary64) : Reads (.number value) := by
  intro frames _
  exact ⟨endedAt frames (.number value), rfl, ends_endedAt frames _⟩

theorem reads_identifier (name : String) : Reads (.identifier name) := by
  intro frames _
  exact ⟨⟨frames, .named name⟩, rfl, ends_named frames name⟩

theorem reads_group {body : Expr} (hbody : Reads body) : Reads (.group body) := by
  intro frames _
  obtain ⟨r, hread, hends⟩ := hbody (.paren :: frames) (Level.assignment_le _)
  have hclose : r.advance (.symbol .rightParen) = .taken (endedAt frames (.group body)) :=
    hends (some (.symbol .rightParen)) rfl (Level.assignment_le _)
  refine ⟨endedAt frames (.group body), ?_, ends_endedAt frames _⟩
  simp only [spelling]
  rw [feed_cons (s := ⟨.paren :: frames, .operand⟩) rfl, feed_append, hread]
  exact feed_cons hclose []

theorem reads_unary (op : UnaryOp) {operand : Expr} (hoperand : Reads operand)
    (hlevel : .unary ≤ operand.level) : Reads (.unary op operand) := by
  intro frames _
  obtain ⟨r, hread, hends⟩ := hoperand (.unary op :: frames) hlevel
  refine ⟨r, ?_, hends.close rfl rfl rfl hlevel⟩
  simp only [spelling]
  rw [feed_cons (s := ⟨.unary op :: frames, .operand⟩) (by cases op <;> rfl)]
  exact hread

theorem level_le_leftLevel (op : BinaryOp) : op.level ≤ op.leftLevel := by cases op <;> decide

theorem level_le_rightLevel (op : BinaryOp) : op.level ≤ op.rightLevel := by cases op <;> decide

/-- A binary operator after its left operand finds nothing to close around the operand. -/
theorem Reader.EndsBefore.advance {op : BinaryOp} {r : Reader} {frames : List Frame} {left : Expr}
    (h : r.EndsBefore frames left (some (.symbol op.symbol))) (hplace : hole frames ≤ op.level) :
    r.advance (.symbol op.symbol) = .taken ⟨.ofBinary op left :: frames, .operand⟩ := by
  have hsettled : Settled op.leftLevel frames := (settled_leftLevel_iff op frames).mpr hplace
  have hstep : r.advance (.symbol op.symbol) = _ := h
  rw [closingLevel_symbol, settle_of_settled hsettled] at hstep
  refine hstep.trans ((afterOperand_symbol op left ?_).trans ?_)
  · exact settled_of_le (Level.le_unary _) hsettled
  · rw [settle_of_settled hsettled]
    rfl

theorem advance_binary (op : BinaryOp) {r : Reader} {frames : List Frame} {left : Expr}
    (h : r.Ends frames left) (hleftLevel : op.leftLevel ≤ left.level)
    (hplace : hole frames ≤ op.level) :
    r.advance (.symbol op.symbol) = .taken ⟨.ofBinary op left :: frames, .operand⟩ :=
  Reader.EndsBefore.advance (h _ (endsOperand_symbol op) (by simpa)) hplace

theorem advance_assign (op : AssignOp) (target : String) {frames : List Frame}
    (hplace : hole frames ≤ .assignment) :
    Reader.advance ⟨frames, .named target⟩ (.symbol op.symbol) =
      .taken ⟨.assign op target :: frames, .operand⟩ := by
  have hadmits : admitsAssignment frames = true := (admitsAssignment_iff frames).mpr hplace
  cases op <;>
    simp [Reader.advance, afterName, AssignOp.symbol, assignOp?, hadmits, opened]

theorem reads_binary (op : BinaryOp) {left right : Expr} (hleft : Reads left)
    (hright : Reads right) (hleftLevel : op.leftLevel ≤ left.level)
    (hrightLevel : op.rightLevel ≤ right.level) : Reads (.binary op left right) := by
  intro frames hfits
  have hplace : hole frames ≤ op.level := hfits
  obtain ⟨r, hread, hends⟩ :=
    hleft frames (Level.le_trans hplace (Level.le_trans (level_le_leftLevel op) hleftLevel))
  have hopen := advance_binary op hends hleftLevel hplace
  obtain ⟨r', hread', hends'⟩ := hright (.ofBinary op left :: frames) (by simpa [hole])
  refine ⟨r', ?_, ?_⟩
  · simp only [spelling, feed_append, hread, Option.bind_some]
    rw [feed_cons hopen]
    exact hread'
  · exact hends'.close (by rw [Frame.level_ofBinary]; exact Frame.close?_ofBinary op left right)
      (Frame.isBracket_ofBinary op left) (Frame.level_ofBinary op left).symm
      (by rw [Frame.level_ofBinary]; exact Level.le_trans (level_le_rightLevel op) hrightLevel)

theorem reads_assign (op : AssignOp) (target : String) {value : Expr} (hvalue : Reads value) :
    Reads (.assign op target value) := by
  intro frames hfits
  obtain ⟨r, hread, hends⟩ := hvalue (.assign op target :: frames) (Level.assignment_le _)
  refine ⟨r, ?_, hends.close rfl rfl rfl (Level.assignment_le _)⟩
  simp only [spelling]
  rw [feed_cons (s := ⟨frames, .named target⟩) rfl, feed_cons (advance_assign op target hfits)]
  exact hread

/-- The arguments of a call and the parenthesis that closes it, after some arguments that have
ended. -/
theorem feed_arguments (name : String) (frames : List Frame) {args : List Expr}
    (hargs : ∀ e ∈ args, Reads e) (hne : args ≠ []) (done : List Expr) :
    Reader.feed ⟨.call name done :: frames, .operand⟩
        (spellings args ++ [.symbol .rightParen])
      = some (endedAt frames (.call name (done.reverse ++ args))) := by
  induction args generalizing done with
  | nil => exact absurd rfl hne
  | cons e rest ih =>
    obtain ⟨r, hread, hends⟩ :=
      hargs e List.mem_cons_self (.call name done :: frames) (Level.assignment_le _)
    cases rest with
    | nil =>
      have hclose : r.advance (.symbol .rightParen) =
          .taken (endedAt frames (.call name (e :: done).reverse)) :=
        hends (some (.symbol .rightParen)) rfl (Level.assignment_le _)
      simp only [spellings, feed_append, hread, Option.bind_some]
      rw [feed_cons hclose, List.reverse_cons]
      rfl
    | cons d rest =>
      have hcomma : r.advance (.symbol .comma) =
          .taken ⟨.call name (e :: done) :: frames, .operand⟩ :=
        hends (some (.symbol .comma)) rfl (Level.assignment_le _)
      have hrest := ih (fun c hc => hargs c (List.mem_cons_of_mem e hc)) (by simp) (e :: done)
      simp only [spellings, List.append_assoc, List.cons_append]
      rw [feed_append, hread, Option.bind_some, feed_cons hcomma, hrest]
      simp

theorem reads_call (name : String) {args : List Expr} (hargs : ∀ e ∈ args, Reads e) :
    Reads (.call name args) := by
  intro frames _
  refine ⟨endedAt frames (.call name args), ?_, ends_endedAt frames _⟩
  simp only [spelling]
  rw [feed_cons (s := ⟨frames, .named name⟩) rfl,
    feed_cons (s := ⟨.call name [] :: frames, .operand⟩) rfl]
  cases args with
  | nil => rfl
  | cons e rest => exact feed_arguments name frames hargs (by simp) []

/-- A reader takes the spelling of every well-formed expression that fits its place. -/
theorem reads_of_wellFormed (e : Expr) (hwf : e.isWellFormed = true) : Reads e := by
  induction e using of_children with
  | step e ih =>
    cases e with
    | number value => exact reads_number value
    | identifier name => exact reads_identifier name
    | group body => exact reads_group (ih body (by simp [children]) hwf)
    | unary op operand =>
      simp only [isWellFormed, Bool.and_eq_true, decide_eq_true_eq] at hwf
      exact reads_unary op (ih operand (by simp [children]) hwf.1) hwf.2
    | binary op left right =>
      simp only [isWellFormed, Bool.and_eq_true, decide_eq_true_eq] at hwf
      obtain ⟨⟨hleft, hleftLevel⟩, hright, hrightLevel⟩ := hwf
      exact reads_binary op (ih left (by simp [children]) hleft)
        (ih right (by simp [children]) hright) hleftLevel hrightLevel
    | call name args =>
      have hargs := (areWellFormed_iff args).mp hwf
      exact reads_call name fun d hd => ih d (by simpa [children] using hd) (hargs d hd)
    | assign op target value =>
      exact reads_assign op target (ih value (by simp [children]) hwf)

theorem readWhole_of_spelling {tokens : List Token} {e : Expr} (hwf : e.isWellFormed = true)
    (hspelling : e.spelling = tokens.map Token.lexeme) : readWhole tokens = .ok e := by
  obtain ⟨r, hread, hends⟩ := reads_of_wellFormed e hwf [] (Level.assignment_le _)
  have hend : r.atEnd = .finished e := hends none rfl (Level.assignment_le _)
  exact readWhole_eq_ok_iff.mpr ⟨r, hspelling ▸ hread, hend⟩

/-- No two well-formed expressions share a spelling. -/
theorem eq_of_spelling_eq {d e : Expr} (hd : d.isWellFormed = true) (he : e.isWellFormed = true)
    (h : d.spelling = e.spelling) : d = e := by
  let tokens : List Token := e.spelling.map fun x => ⟨x, 0, 0⟩
  have htokens : tokens.map Token.lexeme = e.spelling := by
    simp only [tokens, List.map_map]
    exact List.map_id _
  have hreadd := readWhole_of_spelling hd (h.trans htokens.symm)
  have hreade := readWhole_of_spelling he htokens.symm
  simpa [hreadd] using hreade

end Calculator.Expr
