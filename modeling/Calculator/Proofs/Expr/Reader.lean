/-
  Calculator/Proofs/Expr/Reader.lean
  ==================================
  **Reading one token at a time.**  The grammar can also be read by a machine that
  keeps the constructs that are still open in a list, the innermost first, and
  takes one token after the other.  What it has just read is its focus: an operand
  may have to start, a name may turn out to be a call or an assignment, or an
  operand has ended.  An operator that comes after an operand first closes every
  open construct that binds at least as tightly as the grammar asks.

  No program runs this reader.  It is what the theorems on the grammar speak
  about: the open constructs are there to be seen and counted, and what a reader
  still has to read depends on its state and on nothing else.  The descent of the
  parser gives the same results.
-/
import Calculator.Expr.Parse

namespace Calculator.Expr

/-! ### Open constructs -/

/-- A construct that has been opened and not yet closed. -/
inductive Frame where
  /-- A parenthesis. -/
  | paren
  /-- A call with the arguments that have ended, the latest first. -/
  | call (name : String) (done : List Expr)
  /-- An assignment without its value. -/
  | assign (op : AssignOp) (target : String)
  /-- A sum or difference without its right operand. -/
  | sum (op : BinaryOp) (left : Expr)
  /-- A product, quotient or remainder without its right operand. -/
  | product (op : BinaryOp) (left : Expr)
  /-- A power without its exponent. -/
  | power (base : Expr)
  /-- A unary operator without its operand. -/
  | unary (op : UnaryOp)

/-- How tightly a construct binds. -/
inductive Level where
  | assignment
  | sum
  | product
  | power
  | unary
  deriving DecidableEq, Repr

/-- The levels from the loosest to the tightest. -/
def Level.rank : Level → Nat
  | assignment => 0
  | sum => 1
  | product => 2
  | power => 3
  | unary => 4

namespace Frame

/-- The level of an open operation, and the expression that it makes of its last operand.
Parentheses and calls are closed by a token of their own. -/
def close? : Frame → Expr → Option (Level × Expr)
  | paren, _ => none
  | call _ _, _ => none
  | assign op target, value => some (.assignment, .assign op target value)
  | sum op left, right => some (.sum, .binary op left right)
  | product op left, right => some (.product, .binary op left right)
  | power base, exponent => some (.power, .binary .pow base exponent)
  | unary op, operand => some (.unary, .unary op operand)

end Frame

/-- Closes the innermost open operations that bind at least as tightly as a level, around an
operand that has ended. -/
def settle (level : Level) : List Frame → Expr → List Frame × Expr
  | [], e => ([], e)
  | frame :: frames, e =>
    match frame.close? e with
    | some (l, whole) =>
      if level.rank ≤ l.rank then settle level frames whole else (frame :: frames, e)
    | none => (frame :: frames, e)

/-- Whether an assignment may start inside the innermost open construct. -/
def admitsAssignment : List Frame → Bool
  | [] => true
  | .paren :: _ => true
  | .call _ _ :: _ => true
  | .assign _ _ :: _ => true
  | _ => false

/-! ### One token at a time -/

/-- What the reader has just read. -/
inductive Focus where
  /-- An operand has to start. -/
  | operand
  /-- A name has been read, which may turn out to be called or assigned. -/
  | named (name : String)
  /-- An operand has ended. -/
  | ended (e : Expr)

/-- The open constructs and the focus of a reader. -/
structure Reader where
  frames : List Frame
  focus : Focus

/-- The reader of a whole expression, before its first token. -/
def Reader.start : Reader := ⟨[], .operand⟩

/-- What a token does to a reader: it is taken, or the expression has ended before it, or it
is refused. -/
inductive Advance where
  | taken (reader : Reader)
  | finished (e : Expr)
  | refused (why : Refusal)

/-- Opens a construct and waits for its operand. -/
def opened (frame : Frame) (frames : List Frame) : Advance := .taken ⟨frame :: frames, .operand⟩

/-- Takes a primary expression that has ended, and closes the unary operators before it. -/
def completed (frames : List Frame) (e : Expr) : Advance :=
  let (frames, e) := settle .unary frames e
  .taken ⟨frames, .ended e⟩

/-- The end of the innermost assignment: of the whole expression if no parenthesis and no
call is open. -/
def concluded (frames : List Frame) (e : Expr) : Advance :=
  match settle .assignment frames e with
  | ([], e) => .finished e
  | _ => .refused .closingExpected

/-- The token where an operand has to start.  A call may be closed instead of its first
argument. -/
def atOperand (frames : List Frame) : Lexeme → Advance
  | .number value => completed frames (.number value)
  | .identifier name => .taken ⟨frames, .named name⟩
  | .symbol .leftParen => opened .paren frames
  | .symbol .rightParen =>
    match frames with
    | .call name [] :: frames => completed frames (.call name [])
    | _ => .refused .operandExpected
  | .symbol s =>
    match unaryOp? s with
    | some op => opened (.unary op) frames
    | none => .refused .operandExpected

/-- The token after an operand. -/
def afterOperand (frames : List Frame) (e : Expr) : Lexeme → Advance
  | .symbol .caret => opened (.power e) frames
  | .symbol .rightParen =>
    match settle .assignment frames e with
    | (.paren :: frames, e) => completed frames (.group e)
    | (.call name done :: frames, e) => completed frames (.call name (e :: done).reverse)
    | _ => concluded frames e
  | .symbol .comma =>
    match settle .assignment frames e with
    | (.call name done :: frames, e) => .taken ⟨.call name (e :: done) :: frames, .operand⟩
    | _ => concluded frames e
  | .symbol s =>
    match sumOp? s, productOp? s with
    | some op, _ =>
      let (frames, e) := settle .sum frames e
      opened (.sum op e) frames
    | none, some op =>
      let (frames, e) := settle .product frames e
      opened (.product op e) frames
    | none, none => concluded frames e
  | _ => concluded frames e

/-- The token after a name: a parenthesis makes it a call, and an assignment operator makes
it a target where an assignment may start. -/
def afterName (frames : List Frame) (name : String) (lexeme : Lexeme) : Advance :=
  let asOperand :=
    let (frames, e) := settle .unary frames (.identifier name)
    afterOperand frames e lexeme
  match lexeme with
  | .symbol .leftParen => opened (.call name []) frames
  | .symbol s =>
    match assignOp? s with
    | some op =>
      if admitsAssignment frames then opened (.assign op name) frames else asOperand
    | none => asOperand
  | _ => asOperand

/-- One step of a reader. -/
def Reader.advance (r : Reader) (lexeme : Lexeme) : Advance :=
  match r.focus with
  | .operand => atOperand r.frames lexeme
  | .named name => afterName r.frames name lexeme
  | .ended e => afterOperand r.frames e lexeme

/-- The end of the input. -/
def Reader.atEnd (r : Reader) : Advance :=
  match r.focus with
  | .operand => .refused .operandExpected
  | .named name => concluded r.frames (.identifier name)
  | .ended e => concluded r.frames e

/-- Reads an expression from the front of a list of tokens, and gives the tokens after it.
A refusal comes with the tokens from the refused one on. -/
def readTokens (r : Reader) : List Token → Except (Refusal × List Token) (Expr × List Token)
  | [] =>
    match r.atEnd with
    | .taken _ => .error (.operandExpected, [])
    | .finished e => .ok (e, [])
    | .refused why => .error (why, [])
  | token :: tokens =>
    match r.advance token.lexeme with
    | .taken r => readTokens r tokens
    | .finished e => .ok (e, token :: tokens)
    | .refused why => .error (why, token :: tokens)

/-! ### Reading token lists -/

/-- Reads an expression from the token at an offset on, and gives the offset after it. -/
def readFrom (tokens : List Token) (offset : Nat) : Except SyntaxError (Expr × Nat) :=
  let input := tokens.drop offset
  let offsetOf (rest : List Token) : Nat := offset + (input.length - rest.length)
  match readTokens .start input with
  | .ok (e, rest) => .ok (e, offsetOf rest)
  | .error (why, rest) => .error (why.error tokens (offsetOf rest))

/-- Reads a whole list of tokens as one expression. -/
def readWhole (tokens : List Token) : Except SyntaxError Expr :=
  match readFrom tokens 0 with
  | .ok (e, offset) =>
    if offset < tokens.length then .error (.inputLeft (placeAt tokens offset)) else .ok e
  | .error why => .error why

end Calculator.Expr
