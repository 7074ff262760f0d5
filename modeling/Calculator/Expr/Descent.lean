/-
  Calculator/Expr/Descent.lean
  ============================
  **The grammar as procedures that call each other.**  From the loosest operator
  to the tightest, each rule beside the function of the parser that reads it:

      parse_expr         expression  →  assignment
      parse_assignment   assignment  →  name ("=" | "*=" | "/=" | "%=" | "+=" | "-=") assignment
                                     |  sum
      parse_additive     sum         →  product (("+" | "-") product)*
      parse_multiply     product     →  power (("*" | "/" | "%") power)*
      parse_exponent     power       →  signed ("^" power)?
      parse_unary        signed      →  ("+" | "-") signed | primary
      parse_primary      primary     →  call | name | number | "(" assignment ")"
      _parse_func_call   call        →  name "(" (assignment ("," assignment)*)? ")"

  A procedure looks at the tokens ahead, takes a token without asking whether
  there is one (`advance`), and calls the procedures of tighter rules.  The
  repetitions of a sum, a product and a list of arguments are loops, which need no
  call of their own.

  What a body does is given apart from what happens to it.  A descent is the
  innermost procedure with the rest of its body, the procedures that wait for it,
  and the offset of the next token.  Every procedure that has been entered and has
  not ended holds a frame of the call stack, and a procedure for which there is no
  frame left is refused.
-/
import Calculator.Expr
import Calculator.Token

namespace Calculator

/-! ### Errors -/

/-- The place of a syntax error: the offset of a token, and of its first character in the
source.  At the end of the input the character is the one after the last token. -/
structure Place where
  token : Nat
  column : Nat
  deriving DecidableEq, Repr

/-- Why tokens are no expression. -/
inductive SyntaxError where
  /-- An operand had to start at a token, or at the end of the input. -/
  | operandExpected (place : Place) (found : Option Lexeme)
  /-- A parenthesis or call had to be closed. -/
  | closingExpected (place : Place)
  /-- A complete expression is followed by another token. -/
  | inputLeft (place : Place)
  /-- The call stack was used up before the token at the place was taken. -/
  | tooDeep (place : Place)
  deriving DecidableEq, Repr

namespace SyntaxError

/-- Where an error is. -/
def place : SyntaxError → Place
  | operandExpected place _ => place
  | closingExpected place => place
  | inputLeft place => place
  | tooDeep place => place

/-- The message of an error. -/
def message : SyntaxError → String
  | operandExpected place found =>
    "Expected identifier, number or '(' at token " ++ toString place.token ++ ", got "
      ++ (found.map Lexeme.debugText).getD "end of input"
  | closingExpected place => "Expected ')' at token " ++ toString place.token
  | inputLeft place => "Unexpected input after expression at token " ++ toString place.token
  | tooDeep _ => "Expression is nested too deeply"

end SyntaxError

namespace Expr

/-! ### Operators of the grammar -/

/-- The unary operator of a symbol (`_UNARY_OPS`). -/
def unaryOp? : Symbol → Option UnaryOp
  | .plus => some .plus
  | .minus => some .minus
  | _ => none

/-- The operator of a sum (`_ADDITIVE_OPS`). -/
def sumOp? : Symbol → Option BinaryOp
  | .plus => some .add
  | .minus => some .sub
  | _ => none

/-- The operator of a product (`_MULTIPLICATIVE_OPS`). -/
def productOp? : Symbol → Option BinaryOp
  | .star => some .mul
  | .slash => some .div
  | .percent => some .rem
  | _ => none

/-- The operator of an assignment (`_ASSIGN_OPS`). -/
def assignOp? : Symbol → Option AssignOp
  | .assign => some .assign
  | .starAssign => some .mul
  | .slashAssign => some .div
  | .percentAssign => some .rem
  | .plusAssign => some .add
  | .minusAssign => some .sub
  | _ => none

/-! ### Procedures -/

/-- The rules that are chains of operands with operators between them. -/
inductive Chain where
  | sums
  | products

inductive Procedure where
  | expression
  | assignment
  | chain (c : Chain)
  /-- The loop of a chain, after what has been read of it. -/
  | chainRest (c : Chain) (left : Expr)
  | power
  | signed
  | primary
  | call
  /-- The loop of a call after its last argument and those before it, of which the latest
  stands first. -/
  | argumentsRest (name : String) (last : Expr) (earlier : List Expr)

/-- Why a procedure cannot go on. -/
inductive Refusal where
  | operandExpected
  | closingExpected
  deriving DecidableEq, Repr

/-- What a procedure still has to do. -/
inductive Body where
  | returns (e : Expr)
  | refuses (why : Refusal)
  /-- Looks at a token ahead, if there is one (`peek`, `at`). -/
  | looks (ahead : Nat) (next : Option Lexeme → Body)
  /-- Takes the token at the offset (`advance`). -/
  | takes (next : Lexeme → Body)
  /-- Calls a procedure, which gets a frame of its own. -/
  | calls (callee : Procedure) (next : Expr → Body)
  /-- Goes on with a loop, in the same frame. -/
  | loops (rest : Procedure)

def Chain.op? : Chain → Symbol → Option BinaryOp
  | sums => sumOp?
  | products => productOp?

def Chain.operand : Chain → Procedure
  | sums => .chain .products
  | products => .power

/-- What a lexeme is as an operator of some kind. -/
def operator? {α : Type} (op? : Symbol → Option α) : Option Lexeme → Option α
  | some (.symbol s) => op? s
  | _ => none

def only (s t : Symbol) : Option Unit := if t = s then some () else none

/-- The target and the operator of an assignment that starts with two lexemes. -/
def target? : Option Lexeme → Option Lexeme → Option (String × AssignOp)
  | some (.identifier name), some (.symbol s) => (assignOp? s).map fun op => (name, op)
  | _, _ => none

/-- The content of a lexeme as a text. -/
def contentText : Lexeme → String
  | .identifier name => name
  | .number value => value.debugText
  | .symbol s => s.text

namespace Body

/-- Takes the next token if it is an operator of some kind (`match`). -/
def takesIf {α : Type} (op? : Symbol → Option α) (found : α → Body) (otherwise : Body) : Body :=
  .looks 0 fun x =>
    match operator? op? x with
    | some op => .takes fun _ => found op
    | none => otherwise

/-- Takes a closing parenthesis, which has to come now (`expect`). -/
def closes (e : Expr) : Body :=
  .looks 0 fun x =>
    if x = some (.symbol .rightParen) then .takes fun _ => .returns e
    else .refuses .closingExpected

end Body

def Procedure.body : Procedure → Body
  | expression => .calls .assignment .returns
  | assignment =>
    .looks 0 fun first =>
    .looks 1 fun second =>
    match target? first second with
    | some (target, op) =>
      .takes fun _ =>
      .takes fun _ =>
      .calls .assignment fun value => .returns (.assign op target value)
    | none => .calls (.chain .sums) .returns
  | chain c => .calls c.operand fun left => .loops (.chainRest c left)
  | chainRest c left =>
    .takesIf c.op?
      (fun op => .calls c.operand fun right => .loops (.chainRest c (.binary op left right)))
      (.returns left)
  | power =>
    .calls .signed fun base =>
    .takesIf (only .caret)
      (fun _ => .calls .power fun exponent => .returns (.binary .pow base exponent))
      (.returns base)
  | signed =>
    .takesIf unaryOp?
      (fun op => .calls .signed fun operand => .returns (.unary op operand))
      (.calls .primary .returns)
  | primary =>
    .looks 0 fun first =>
    .looks 1 fun second =>
    match first with
    | some (.identifier name) =>
      if second = some (.symbol .leftParen) then .calls .call .returns
      else .takes fun _ => .returns (.identifier name)
    | some (.number value) => .takes fun _ => .returns (.number value)
    | some (.symbol .leftParen) =>
      .takes fun _ => .calls .assignment fun e => .closes (.group e)
    | _ => .refuses .operandExpected
  | call =>
    .takes fun name =>
    .takes fun _ =>
    .looks 0 fun x =>
    if x = some (.symbol .rightParen) then .closes (.call (contentText name) [])
    else .calls .assignment fun e => .loops (.argumentsRest (contentText name) e [])
  | argumentsRest name last earlier =>
    .takesIf (only .comma)
      (fun _ => .calls .assignment fun e => .loops (.argumentsRest name e (last :: earlier)))
      (.closes (.call name (last :: earlier).reverse))

/-! ### Descents -/

/-- A procedure that has been entered: the offset at which it was entered, and the number of
frames of the call stack that are held then by the procedures, its own among them. -/
structure Activation where
  procedure : Procedure
  start : Nat
  depth : Nat

/-- A procedure that waits for the one that it has called. -/
structure Caller where
  activation : Activation
  resume : Expr → Body

/-- A state of a descent: what the innermost procedure has still to do, the procedures that
wait for it, the innermost first, and the offset of the next token. -/
structure Descent where
  active : Activation
  body : Body
  callers : List Caller
  offset : Nat

def lexemeAt (tokens : List Token) (offset : Nat) : Option Lexeme :=
  tokens[offset]?.map Token.lexeme

/-- The place of the token at an offset of a list of tokens (`column`). -/
def placeAt (tokens : List Token) (offset : Nat) : Place :=
  ⟨offset,
    match tokens[offset]? with
    | some token => token.start
    | none => (tokens.getLast?.map Token.stop).getD 0⟩

/-- The error of a refusal at an offset of a list of tokens. -/
def Refusal.error (tokens : List Token) (offset : Nat) : Refusal → SyntaxError
  | operandExpected => .operandExpected (placeAt tokens offset) (lexemeAt tokens offset)
  | closingExpected => .closingExpected (placeAt tokens offset)

namespace Descent

/-- The descent before its first step. -/
def start (offset : Nat) : Descent :=
  ⟨⟨.expression, offset, 1⟩, Procedure.expression.body, [], offset⟩

/-- One step.  There is none after the last procedure has ended, at a refusal, and where a token
is taken that is not there. -/
def next? (tokens : List Token) (d : Descent) : Option Descent :=
  match d.body with
  | .returns e =>
    match d.callers with
    | [] => none
    | caller :: callers => some ⟨caller.activation, caller.resume e, callers, d.offset⟩
  | .refuses _ => none
  | .looks ahead next => some { d with body := next (lexemeAt tokens (d.offset + ahead)) }
  | .takes next =>
    (lexemeAt tokens d.offset).map fun x => { d with body := next x, offset := d.offset + 1 }
  | .calls callee next =>
    some ⟨⟨callee, d.offset, d.active.depth + 1⟩, callee.body, ⟨d.active, next⟩ :: d.callers,
      d.offset⟩
  | .loops rest => some ⟨⟨rest, d.offset, d.active.depth⟩, rest.body, d.callers, d.offset⟩

/-- Whether the innermost procedure has no frame, if only so many are left to the procedures. -/
def overflows (room : Option Nat) (d : Descent) : Bool :=
  room.any fun frames => frames < d.active.depth

/-- What a descent gives that comes to no further step: it has ended, it is refused, or its
innermost procedure finds no frame. -/
def result? (room : Option Nat) (tokens : List Token) (d : Descent) :
    Option (Except SyntaxError (Expr × Nat)) :=
  if d.overflows room then some (.error (.tooDeep (placeAt tokens d.offset)))
  else
    match d.body, d.callers with
    | .returns e, [] => some (.ok (e, d.offset))
    | .refuses why, _ => some (.error (why.error tokens d.offset))
    | _, _ => none

/-- There are only finitely many steps from a descent on. -/
abbrev Halts (tokens : List Token) (d : Descent) : Prop :=
  Acc (fun d' d : Descent => d.next? tokens = some d') d

section Run

variable {tokens : List Token} {room : Option Nat} {d d' : Descent}

instance : WellFoundedRelation { d : Descent // d.Halts tokens } where
  rel d' d := d.1.next? tokens = some d'.1
  wf := ⟨fun ⟨d, h⟩ => by
    induction h with
    | intro d h ih => exact ⟨_, fun ⟨d', _⟩ hstep => ih d' hstep⟩⟩

/-- Runs a descent to its end, or to the procedure that finds no frame.  There is no result where
a token is taken that is not there. -/
def run (room : Option Nat) (tokens : List Token) (d : Descent) (h : d.Halts tokens) :
    Option (Except SyntaxError (Expr × Nat)) :=
  match d.result? room tokens with
  | some result => some result
  | none =>
    match hstep : d.next? tokens with
    | some d' => run room tokens d' (h.inv hstep)
    | none => none
termination_by (⟨d, h⟩ : { d : Descent // d.Halts tokens })

theorem run_of_result? {x : Except SyntaxError (Expr × Nat)} (h : d.Halts tokens)
    (hresult : d.result? room tokens = some x) : d.run room tokens h = some x := by
  rw [run, hresult]

theorem run_of_next? (h : d.Halts tokens) (hnone : d.result? room tokens = none)
    (hstep : d.next? tokens = some d') :
    d.run room tokens h = d'.run room tokens (h.inv hstep) := by
  rw [run, hnone]
  dsimp only
  split
  · next d'' hother =>
    obtain rfl := Option.some.inj (hother.symm.trans hstep)
    rfl
  · next hother => simp [hother] at hstep

end Run

end Descent

end Expr

end Calculator
