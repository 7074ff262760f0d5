/-
  Calculator/Proofs/Expr/Grammar.lean
  ===================================
  **What the grammar says of a tree**, without a reader.  An expression has a
  level, the loosest rule of the grammar that it can come from, and every place
  for an operand asks for a least level: a sum takes any sum on its left and only
  a product on its right, so that it associates to the left, and a power takes a
  signed expression as its base and any power as its exponent, so that it
  associates to the right.  A tree whose operands all have the level that their
  places ask for is *well formed*.

  The *spelling* of a tree is the sequence of lexemes that writes it with the
  parentheses that stand in the tree and no others.  A well-formed tree and its
  spelling are one derivation of the grammar and the word that it derives.
-/
import Calculator.Proofs.Expr.Reader

namespace Calculator

/-! ### Symbols of operators -/

def UnaryOp.symbol : UnaryOp → Symbol
  | plus => .plus
  | minus => .minus

def BinaryOp.symbol : BinaryOp → Symbol
  | add => .plus
  | sub => .minus
  | mul => .star
  | div => .slash
  | rem => .percent
  | pow => .caret

def AssignOp.symbol : AssignOp → Symbol
  | assign => .assign
  | mul => .starAssign
  | div => .slashAssign
  | rem => .percentAssign
  | add => .plusAssign
  | sub => .minusAssign

/-! ### Levels -/

/-- The level of the operations of a binary operator. -/
def BinaryOp.level : BinaryOp → Expr.Level
  | add => .sum
  | sub => .sum
  | mul => .product
  | div => .product
  | rem => .product
  | pow => .power

/-- The least level of the operand before a binary operator. -/
def BinaryOp.leftLevel : BinaryOp → Expr.Level
  | add => .sum
  | sub => .sum
  | mul => .product
  | div => .product
  | rem => .product
  | pow => .unary

/-- The least level of the operand after a binary operator. -/
def BinaryOp.rightLevel : BinaryOp → Expr.Level
  | add => .product
  | sub => .product
  | mul => .power
  | div => .power
  | rem => .power
  | pow => .power

namespace Expr

instance : LE Level := ⟨fun a b => a.rank ≤ b.rank⟩

instance (a b : Level) : Decidable (a ≤ b) := inferInstanceAs (Decidable (a.rank ≤ b.rank))

namespace Level

theorem le_iff (a b : Level) : a ≤ b ↔ a.rank ≤ b.rank := Iff.rfl

theorem le_refl (a : Level) : a ≤ a := Nat.le_refl a.rank

theorem le_trans {a b c : Level} (hab : a ≤ b) (hbc : b ≤ c) : a ≤ c := Nat.le_trans hab hbc

theorem assignment_le (a : Level) : assignment ≤ a := by cases a <;> decide

theorem le_unary (a : Level) : a ≤ unary := by cases a <;> decide

end Level

/-- The level of an expression.  No place asks for more than the level of a signed expression,
so primary expressions have that level too. -/
def level : Expr → Level
  | binary op _ _ => op.level
  | assign .. => .assignment
  | _ => .unary

/-! ### Well-formed trees -/

mutual

/-- Whether every operand has the level that its place asks for.  An assignment may stand at
the top, in parentheses, as an argument and as the value of an assignment. -/
def isWellFormed : Expr → Bool
  | .number _ => true
  | .identifier _ => true
  | .group body => body.isWellFormed
  | .unary _ operand => operand.isWellFormed && decide (.unary ≤ operand.level)
  | .binary op left right =>
    (left.isWellFormed && decide (op.leftLevel ≤ left.level)) &&
      (right.isWellFormed && decide (op.rightLevel ≤ right.level))
  | .call _ args => areWellFormed args
  | .assign _ _ value => value.isWellFormed

def areWellFormed : List Expr → Bool
  | [] => true
  | e :: rest => e.isWellFormed && areWellFormed rest

end

theorem areWellFormed_iff (es : List Expr) :
    areWellFormed es = true ↔ ∀ e ∈ es, e.isWellFormed = true := by
  induction es with
  | nil => simp [areWellFormed]
  | cons e rest ih => simp [areWellFormed, ih]

/-! ### Spellings -/

mutual

/-- The lexemes that write an expression with no parentheses added. -/
def spelling : Expr → List Lexeme
  | .number value => [.number value]
  | .identifier name => [.identifier name]
  | .group body => .symbol .leftParen :: (body.spelling ++ [.symbol .rightParen])
  | .unary op operand => .symbol op.symbol :: operand.spelling
  | .binary op left right => left.spelling ++ .symbol op.symbol :: right.spelling
  | .call name args =>
    .identifier name :: .symbol .leftParen :: (spellings args ++ [.symbol .rightParen])
  | .assign op target value => .identifier target :: .symbol op.symbol :: value.spelling

/-- The lexemes that write a list of arguments, with commas between them. -/
def spellings : List Expr → List Lexeme
  | [] => []
  | [e] => e.spelling
  | e :: d :: rest => e.spelling ++ .symbol .comma :: spellings (d :: rest)

end

/-- The arguments of a call before the last one, each with its comma. -/
def spellingsBefore (es : List Expr) : List Lexeme :=
  es.flatMap fun e => e.spelling ++ [.symbol .comma]

@[simp] theorem spellingsBefore_nil : spellingsBefore [] = [] := rfl

@[simp] theorem spellingsBefore_append (es ds : List Expr) :
    spellingsBefore (es ++ ds) = spellingsBefore es ++ spellingsBefore ds := by
  simp [spellingsBefore]

@[simp] theorem spellingsBefore_singleton (e : Expr) :
    spellingsBefore [e] = e.spelling ++ [.symbol .comma] := by
  simp [spellingsBefore]

theorem spellings_concat (es : List Expr) (e : Expr) :
    spellings (es ++ [e]) = spellingsBefore es ++ e.spelling := by
  induction es with
  | nil => simp [spellings]
  | cons d rest ih =>
    cases rest with
    | nil => simp [spellings, spellingsBefore]
    | cons c rest =>
      have hrest : spellings (c :: (rest ++ [e])) = spellingsBefore (c :: rest) ++ e.spelling := ih
      simp [spellings, hrest, spellingsBefore]

/-! ### Reading a symbol as an operator -/

@[simp] theorem unaryOp?_symbol (op : UnaryOp) : unaryOp? op.symbol = some op := by
  cases op <;> rfl

@[simp] theorem assignOp?_symbol (op : AssignOp) : assignOp? op.symbol = some op := by
  cases op <;> rfl

theorem eq_symbol_of_unaryOp? {s : Symbol} {op : UnaryOp} (h : unaryOp? s = some op) :
    s = op.symbol := by
  cases s <;> simp only [unaryOp?, reduceCtorEq, Option.some.injEq] at h <;> subst h <;> rfl

theorem eq_symbol_of_assignOp? {s : Symbol} {op : AssignOp} (h : assignOp? s = some op) :
    s = op.symbol := by
  cases s <;> simp only [assignOp?, reduceCtorEq, Option.some.injEq] at h <;> subst h <;> rfl

theorem eq_symbol_of_sumOp? {s : Symbol} {op : BinaryOp} (h : sumOp? s = some op) :
    s = op.symbol ∧ op.level = .sum := by
  cases s <;> simp only [sumOp?, reduceCtorEq, Option.some.injEq] at h <;> subst h <;>
    exact ⟨rfl, rfl⟩

theorem eq_symbol_of_productOp? {s : Symbol} {op : BinaryOp} (h : productOp? s = some op) :
    s = op.symbol ∧ op.level = .product := by
  cases s <;> simp only [productOp?, reduceCtorEq, Option.some.injEq] at h <;> subst h <;>
    exact ⟨rfl, rfl⟩

end Expr

end Calculator
