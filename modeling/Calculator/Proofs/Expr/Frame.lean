/-
  Calculator/Proofs/Expr/Frame.lean
  =================================
  **Open constructs and their places.**  An open construct waits for an operand
  of some least level, its hole, and becomes an expression of a level of its own.
  Constructs can stand around each other when each one's level is at least what
  the hole around it asks for.  An operand that ends closes the constructs around
  it down to the level that the next lexeme asks for; what is left are constructs
  in their places, around a well-formed operand, with the same spelling.
-/
import Calculator.Proofs.Expr.Run

namespace Calculator.Expr

namespace Frame

/-- The least level of the operand that a construct waits for. -/
def hole : Frame → Level
  | paren => .assignment
  | call _ _ => .assignment
  | assign _ _ => .assignment
  | sum _ _ => .product
  | product _ _ => .power
  | power _ => .power
  | unary _ => .unary

/-- The level of the expression that a construct becomes. -/
def level : Frame → Level
  | paren => .unary
  | call _ _ => .unary
  | assign _ _ => .assignment
  | sum _ _ => .sum
  | product _ _ => .product
  | power _ => .power
  | unary _ => .unary

/-- Whether the operands that a construct already has are well formed and fit. -/
def isWellFormed : Frame → Bool
  | call _ done => areWellFormed done
  | sum op left => decide (op.level = .sum) && (left.isWellFormed && decide (.sum ≤ left.level))
  | product op left =>
    decide (op.level = .product) && (left.isWellFormed && decide (.product ≤ left.level))
  | power base => base.isWellFormed && decide (.unary ≤ base.level)
  | _ => true

def spelling : Frame → List Lexeme
  | paren => [.symbol .leftParen]
  | call name done => .identifier name :: .symbol .leftParen :: spellingsBefore done.reverse
  | assign op target => [.identifier target, .symbol op.symbol]
  | sum op left => left.spelling ++ [.symbol op.symbol]
  | product op left => left.spelling ++ [.symbol op.symbol]
  | power base => base.spelling ++ [.symbol .caret]
  | unary op => [.symbol op.symbol]

/-- Whether a construct is closed by a token of its own, and not by what comes after its
operand. -/
def isBracket : Frame → Bool
  | paren => true
  | call _ _ => true
  | _ => false

/-- Whether an operand that ends closes a construct down to a level. -/
def closesAt (l : Level) (f : Frame) : Bool := !f.isBracket && decide (l ≤ f.level)

theorem closesAt_iff {l : Level} {f : Frame} :
    f.closesAt l = true ↔ f.isBracket = false ∧ l ≤ f.level := by
  simp [closesAt]

theorem closesAt_of_le {l k : Level} (hlk : l ≤ k) {f : Frame} (h : f.closesAt k = true) :
    f.closesAt l = true := by
  obtain ⟨hbracket, hk⟩ := closesAt_iff.mp h
  exact closesAt_iff.mpr ⟨hbracket, Level.le_trans hlk hk⟩

theorem close?_of_isBracket {f : Frame} (h : f.isBracket = true) (e : Expr) :
    f.close? e = none := by
  cases f <;> simp_all [isBracket, close?]

/-- The construct that a binary operator opens after its left operand. -/
def ofBinary : BinaryOp → Expr → Frame
  | .add, left => sum .add left
  | .sub, left => sum .sub left
  | .mul, left => product .mul left
  | .div, left => product .div left
  | .rem, left => product .rem left
  | .pow, left => power left

@[simp] theorem level_ofBinary (op : BinaryOp) (left : Expr) :
    (ofBinary op left).level = op.level := by
  cases op <;> rfl

@[simp] theorem hole_ofBinary (op : BinaryOp) (left : Expr) :
    (ofBinary op left).hole = op.rightLevel := by
  cases op <;> rfl

@[simp] theorem spelling_ofBinary (op : BinaryOp) (left : Expr) :
    (ofBinary op left).spelling = left.spelling ++ [.symbol op.symbol] := by
  cases op <;> rfl

theorem close?_ofBinary (op : BinaryOp) (left right : Expr) :
    (ofBinary op left).close? right = some (op.level, .binary op left right) := by
  cases op <;> rfl

@[simp] theorem isBracket_ofBinary (op : BinaryOp) (left : Expr) :
    (ofBinary op left).isBracket = false := by
  cases op <;> rfl

theorem isWellFormed_ofBinary {op : BinaryOp} {left : Expr} (hleft : left.isWellFormed = true)
    (hlevel : op.leftLevel ≤ left.level) : (ofBinary op left).isWellFormed = true := by
  cases op <;>
    simpa [ofBinary, isWellFormed, BinaryOp.level, hleft, BinaryOp.leftLevel] using hlevel

/-- A construct that is closed becomes an expression of its own level, spelled by the
construct and its last operand. -/
theorem close?_of_not_isBracket {f : Frame} (h : f.isBracket = false) (e : Expr) :
    ∃ whole, f.close? e = some (f.level, whole) ∧
      whole.spelling = f.spelling ++ e.spelling ∧
      (f.isWellFormed = true → whole.level = f.level) ∧
      (f.isWellFormed = true → e.isWellFormed = true → f.hole ≤ e.level →
        whole.isWellFormed = true) := by
  cases f with
  | paren => simp [isBracket] at h
  | call name done => simp [isBracket] at h
  | assign op target =>
    exact ⟨.assign op target e, rfl, rfl, fun _ => rfl, fun _ he _ => he⟩
  | sum op left | product op left =>
    refine ⟨.binary op left e, rfl, by simp [Expr.spelling, spelling], ?_, ?_⟩
    · intro hf
      simp only [isWellFormed, Bool.and_eq_true, decide_eq_true_eq] at hf
      exact hf.1
    · intro hf he hfits
      simp only [isWellFormed, Bool.and_eq_true, decide_eq_true_eq] at hf
      obtain ⟨hop, hleft, hlevel⟩ := hf
      cases op <;> simp_all [Expr.isWellFormed, BinaryOp.level, BinaryOp.leftLevel,
        BinaryOp.rightLevel, hole]
  | power base =>
    refine ⟨.binary .pow base e, rfl, by simp [Expr.spelling, spelling, BinaryOp.symbol],
      fun _ => rfl, ?_⟩
    intro hf he hfits
    simp only [isWellFormed, Bool.and_eq_true, decide_eq_true_eq] at hf
    simp only [Expr.isWellFormed, Bool.and_eq_true, decide_eq_true_eq]
    exact ⟨hf, he, hfits⟩
  | unary op =>
    refine ⟨.unary op e, rfl, rfl, fun _ => rfl, ?_⟩
    intro _ he hfits
    simpa [Expr.isWellFormed, he, hole] using hfits

end Frame

/-! ### Constructs around each other -/

/-- The least level of an operand inside a list of open constructs. -/
def hole : List Frame → Level
  | [] => .assignment
  | f :: _ => f.hole

/-- Open constructs, each in a place of the one around it. -/
def Nested : List Frame → Prop
  | [] => True
  | f :: frames => f.isWellFormed = true ∧ hole frames ≤ f.level ∧ Nested frames

/-- The lexemes of a list of open constructs, of which the innermost stands first. -/
def openSpelling (frames : List Frame) : List Lexeme := frames.reverse.flatMap Frame.spelling

@[simp] theorem openSpelling_nil : openSpelling [] = [] := rfl

@[simp] theorem openSpelling_cons (f : Frame) (frames : List Frame) :
    openSpelling (f :: frames) = openSpelling frames ++ f.spelling := by
  simp [openSpelling]

theorem admitsAssignment_iff (frames : List Frame) :
    admitsAssignment frames = true ↔ hole frames ≤ .assignment := by
  cases frames with
  | nil => exact ⟨fun _ => Level.le_refl _, fun _ => rfl⟩
  | cons f frames => cases f <;> simp [admitsAssignment, hole, Frame.hole] <;> decide

/-! ### Closing constructs -/

/-- No construct is left that an operand would close down to a level. -/
def Settled (l : Level) (frames : List Frame) : Prop :=
  ∀ f ∈ frames.head?, f.closesAt l = false

theorem settled_of_le {l k : Level} (hlk : l ≤ k) {frames : List Frame} (h : Settled l frames) :
    Settled k frames := by
  intro f hf
  cases hk : f.closesAt k with
  | false => rfl
  | true =>
    have hl := Frame.closesAt_of_le hlk hk
    rw [h f hf] at hl
    simp at hl

theorem settle_of_settled {l : Level} {frames : List Frame} (h : Settled l frames) (e : Expr) :
    settle l frames e = (frames, e) := by
  cases frames with
  | nil => rfl
  | cons f frames =>
    have hf : f.closesAt l = false := h f (by simp)
    cases hbracket : f.isBracket with
    | true => simp only [settle, Frame.close?_of_isBracket hbracket]
    | false =>
      obtain ⟨whole, hclose, -⟩ := Frame.close?_of_not_isBracket hbracket e
      have hlevel : ¬l ≤ f.level := by simpa [Frame.closesAt, hbracket] using hf
      simp only [settle, hclose]
      exact if_neg hlevel

/-- What closing a construct does, and what it makes of the construct and its operand. -/
theorem settle_cons {l : Level} {f : Frame} (h : f.closesAt l = true) (frames : List Frame)
    (e : Expr) :
    ∃ whole, settle l (f :: frames) e = settle l frames whole ∧
      f.close? e = some (f.level, whole) ∧
      whole.spelling = f.spelling ++ e.spelling ∧
      (f.isWellFormed = true → whole.level = f.level) ∧
      (f.isWellFormed = true → e.isWellFormed = true → f.hole ≤ e.level →
        whole.isWellFormed = true) := by
  obtain ⟨hbracket, hlevel⟩ := Frame.closesAt_iff.mp h
  obtain ⟨whole, hclose, hwhole⟩ := Frame.close?_of_not_isBracket hbracket e
  refine ⟨whole, ?_, hclose, hwhole⟩
  simp only [settle, hclose]
  exact if_pos hlevel

/-- What is open after a closing was open before it. -/
theorem settle_suffix (l : Level) (frames : List Frame) (e : Expr) :
    (settle l frames e).1 <:+ frames := by
  induction frames generalizing e with
  | nil => exact List.suffix_refl _
  | cons f frames ih =>
    by_cases hf : f.closesAt l = true
    · obtain ⟨whole, hsettle, -⟩ := settle_cons hf frames e
      rw [hsettle]
      exact (ih whole).trans (List.suffix_cons f frames)
    · have hsettled : Settled l (f :: frames) := by simpa [Settled] using hf
      simp only [settle_of_settled hsettled, List.suffix_refl]

theorem settle_settle {l k : Level} (h : l ≤ k) (frames : List Frame) (e : Expr) :
    settle l (settle k frames e).1 (settle k frames e).2 = settle l frames e := by
  induction frames generalizing e with
  | nil => rfl
  | cons f frames ih =>
    by_cases hf : f.closesAt k = true
    · obtain ⟨whole, hk, hclose, -⟩ := settle_cons hf frames e
      obtain ⟨whole', hl, hclose', -⟩ := settle_cons (Frame.closesAt_of_le h hf) frames e
      have hsame : whole' = whole := by simpa [hclose] using hclose'.symm
      rw [hk, hl, hsame]
      exact ih whole
    · have hsettled : Settled k (f :: frames) := by simpa [Settled] using hf
      rw [settle_of_settled hsettled]

theorem settled_settle (l : Level) (frames : List Frame) (e : Expr) :
    Settled l (settle l frames e).1 := by
  induction frames generalizing e with
  | nil => simp [settle, Settled]
  | cons f frames ih =>
    by_cases hf : f.closesAt l = true
    · obtain ⟨whole, hsettle, -⟩ := settle_cons hf frames e
      rw [hsettle]
      exact ih whole
    · have hsettled : Settled l (f :: frames) := by simpa [Settled] using hf
      rw [settle_of_settled hsettled]
      exact hsettled

/-- Closing constructs changes nothing of what they spell out around their operand. -/
theorem spelling_settle (l : Level) (frames : List Frame) (e : Expr) :
    openSpelling (settle l frames e).1 ++ (settle l frames e).2.spelling
      = openSpelling frames ++ e.spelling := by
  induction frames generalizing e with
  | nil => rfl
  | cons f frames ih =>
    by_cases hf : f.closesAt l = true
    · obtain ⟨whole, hsettle, -, hspelling, -⟩ := settle_cons hf frames e
      rw [hsettle, ih, hspelling]
      simp
    · have hsettled : Settled l (f :: frames) := by simpa [Settled] using hf
      rw [settle_of_settled hsettled]

/-- A well-formed operand in its place inside open constructs. -/
structure Placed (frames : List Frame) (e : Expr) : Prop where
  nested : Nested frames
  wellFormed : e.isWellFormed = true
  fits : hole frames ≤ e.level

/-- Closing constructs around an operand in its place leaves an operand in its place, and one
of at least the level asked for. -/
theorem placed_settle {l : Level} {frames : List Frame} {e : Expr} (h : Placed frames e)
    (hlevel : l ≤ e.level) :
    Placed (settle l frames e).1 (settle l frames e).2 ∧ l ≤ (settle l frames e).2.level := by
  induction frames generalizing e with
  | nil => exact ⟨h, hlevel⟩
  | cons f frames ih =>
    by_cases hf : f.closesAt l = true
    · obtain ⟨hnested, hwf, hfits⟩ := h
      obtain ⟨hfwf, hflevel, hframes⟩ := hnested
      obtain ⟨whole, hsettle, -, -, hwhole, hwholewf⟩ := settle_cons hf frames e
      rw [hsettle]
      have hl : l ≤ f.level := (Frame.closesAt_iff.mp hf).2
      have hplaced : Placed frames whole :=
        ⟨hframes, hwholewf hfwf hwf hfits, by rw [hwhole hfwf]; exact hflevel⟩
      exact ih hplaced (by rw [hwhole hfwf]; exact hl)
    · have hsettled : Settled l (f :: frames) := by simpa [Settled] using hf
      rw [settle_of_settled hsettled]
      exact ⟨h, hlevel⟩

/-- The construct around a place for an operation of a binary operator is one that the
operator's left operand does not close. -/
theorem closesAt_leftLevel_iff (op : BinaryOp) (f : Frame) :
    f.closesAt op.leftLevel = false ↔ f.hole ≤ op.level := by
  cases f <;> cases op <;>
    simp [Frame.closesAt, Frame.isBracket, Frame.level, Frame.hole, BinaryOp.leftLevel,
      BinaryOp.level, Level.le_iff, Level.rank]

theorem settled_leftLevel_iff (op : BinaryOp) (frames : List Frame) :
    Settled op.leftLevel frames ↔ hole frames ≤ op.level := by
  cases frames with
  | nil => simp [Settled, hole, Level.assignment_le]
  | cons f frames => simpa [Settled, hole] using closesAt_leftLevel_iff op f

end Calculator.Expr
