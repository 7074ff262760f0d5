/-
  Calculator/Expr.lean
  ====================
  **Expression trees** (`Number`, `Identifier`, `Group`, `UnaryExpr`, `BinaryExpr`,
  `FuncCall`, `Assignment`).  A tree keeps the parentheses and unary plus signs of
  its source, although neither changes a value, because its rendering depends
  on them.  An assignment is an expression, and its target is a bare name.
-/
import Calculator.Number.Binary64

namespace Calculator

/-! ### Operators -/

/-- The operators before an operand (`UnaryOp`). -/
inductive UnaryOp where
  | plus
  | minus
  deriving DecidableEq, Repr

/-- The operators between two operands (`BinaryOp`). -/
inductive BinaryOp where
  | add
  | sub
  | mul
  | div
  | rem
  | pow
  deriving DecidableEq, Repr

/-- The assignment operators (`AssignOp`): the plain one, and those that combine the target's value
with the assigned one. -/
inductive AssignOp where
  | assign
  | mul
  | div
  | rem
  | add
  | sub
  deriving DecidableEq, Repr

/-- The text of a unary operator. -/
def UnaryOp.text : UnaryOp → String
  | plus => "+"
  | minus => "-"

/-- The text of a binary operator. -/
def BinaryOp.text : BinaryOp → String
  | add => "+"
  | sub => "-"
  | mul => "*"
  | div => "/"
  | rem => "%"
  | pow => "^"

/-- The text of an assignment operator. -/
def AssignOp.text : AssignOp → String
  | assign => "="
  | mul => "*="
  | div => "/="
  | rem => "%="
  | add => "+="
  | sub => "-="

/-- The operator that a compound assignment applies before it writes (`_COMPOUND`). -/
def AssignOp.combines? : AssignOp → Option BinaryOp
  | assign => none
  | mul => some .mul
  | div => some .div
  | rem => some .rem
  | add => some .add
  | sub => some .sub

/-! ### Trees -/

/-- An expression. -/
inductive Expr where
  | number (value : Binary64)
  | identifier (name : String)
  | group (body : Expr)
  | unary (op : UnaryOp) (operand : Expr)
  | binary (op : BinaryOp) (left right : Expr)
  | call (name : String) (args : List Expr)
  | assign (op : AssignOp) (target : String) (value : Expr)
  deriving Repr, Inhabited

/-- The operands of an expression, in source order (`_children`). -/
def Expr.children : Expr → List Expr
  | number _ => []
  | identifier _ => []
  | group body => [body]
  | unary _ operand => [operand]
  | binary _ left right => [left, right]
  | call _ args => args
  | assign _ _ value => [value]

mutual

/-- The number of nodes of an expression. -/
def Expr.size : Expr → Nat
  | .number _ => 1
  | .identifier _ => 1
  | .group body => body.size + 1
  | .unary _ operand => operand.size + 1
  | .binary _ left right => left.size + right.size + 1
  | .call _ args => Expr.totalSize args + 1
  | .assign _ _ value => value.size + 1

/-- The number of nodes of a list of expressions. -/
def Expr.totalSize : List Expr → Nat
  | [] => 0
  | e :: rest => e.size + Expr.totalSize rest

end

end Calculator
