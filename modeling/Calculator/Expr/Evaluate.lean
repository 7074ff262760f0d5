/-
  Calculator/Expr/Evaluate.lean
  =============================
  **The value of an expression in a memory** (`evaluate`).  Operands are evaluated
  from left to right, and the first error ends the evaluation; what has been written
  before it stays.  A call is looked up before its arguments are evaluated, a
  compound assignment reads its target before its value, and a constant is
  protected when the value is about to be written.

  The evaluation is a walk with a list of finished values, the latest first.
-/
import Calculator.Expr.Render
import Calculator.Function
import Calculator.Memory

namespace Calculator

/-! ### Errors and results -/

/-- Why an expression has no value (`VariableNotFoundError`, `InvalidFunctionCallError`,
`CannotChangeConstantError`). -/
inductive EvalError where
  /-- A name is neither a constant nor a variable. -/
  | unbound (name : String)
  /-- No function has this name and this number of arguments.  The call is shown. -/
  | unknownCall (call : String)
  /-- The target of an assignment is a constant. -/
  | constantTarget (name : String)
  deriving DecidableEq, Repr

/-- The message of an error. -/
def EvalError.message : EvalError → String
  | unbound name => "Variable not found: " ++ name
  | unknownCall call => "Invalid function call: (" ++ call ++ ")"
  | constantTarget name => "Cannot change constant: " ++ name

/-- What an evaluation comes to: a value or an error, the memory afterwards, and the
assignments that were completed, in order. -/
structure Evaluation (α : Type) where
  outcome : Except EvalError α
  memory : Memory
  writes : List (String × Binary64)

namespace Evaluation

/-- The evaluation to a value that leaves the memory alone. -/
def value {α : Type} (a : α) (m : Memory) : Evaluation α := ⟨.ok a, m, []⟩

/-- The evaluation that fails and leaves the memory alone. -/
def failure {α : Type} (e : EvalError) (m : Memory) : Evaluation α := ⟨.error e, m, []⟩

/-- One evaluation and then another one in the memory after it, unless the first one fails. -/
def bind {α β : Type} (x : Evaluation α) (next : α → Memory → Evaluation β) : Evaluation β :=
  match x.outcome with
  | .error e => ⟨.error e, x.memory, x.writes⟩
  | .ok a =>
    let y := next a x.memory
    ⟨y.outcome, y.memory, x.writes ++ y.writes⟩

end Evaluation

/-- The value of a unary operation. -/
def UnaryOp.apply : UnaryOp → Binary64 → Binary64
  | plus, x => x
  | minus, x => x.negate

/-- The value of a binary operation (`_BINARY`). -/
def BinaryOp.apply : BinaryOp → Binary64 → Binary64 → Binary64
  | add => .add
  | sub => .sub
  | mul => .mul
  | div => .div
  | rem => .rem
  | pow => .pow

/-- The value that an assignment operator writes: the assigned value, or its combination
with the target's value. -/
def AssignOp.written (op : AssignOp) (current value : Binary64) : Binary64 :=
  match op.combines? with
  | none => value
  | some o => o.apply current value

namespace Expr

/-! ### The walk -/

/-- What an evaluation has reached: the finished values and the completed assignments, both
the latest first, and the memory. -/
structure Progress where
  values : List Binary64
  memory : Memory
  writes : List (String × Binary64)

namespace Progress

/-- Puts a value on the list. -/
def push (p : Progress) (value : Binary64) : Progress :=
  { p with values := value :: p.values }

/-- The evaluation that ends with an error. -/
def failed (p : Progress) (e : EvalError) : Evaluation Binary64 :=
  ⟨.error e, p.memory, p.writes.reverse⟩

/-- Takes `arity` values off the list, in the order in which they were finished; `none` if
there are not so many. -/
def take? (p : Progress) (arity : Nat) : Option (List Binary64 × Progress) :=
  if p.values.length < arity then none
  else some ((p.values.take arity).reverse, { p with values := p.values.drop arity })

end Progress

/-- What the visit of a node comes to: its value, or the wait for its operands, or an
error. -/
inductive Visit where
  | finished (p : Progress)
  | waiting (p : Progress)
  | failed (e : EvalError)

/-- Visits a node on the way down (`_interpret`). -/
def visitStep (e : Expr) (p : Progress) : Visit :=
  match e with
  | number value => .finished (p.push value)
  | identifier name =>
    match p.memory.get? name with
    | some value => .finished (p.push value)
    | none => .failed (.unbound name)
  | call name args =>
    match Function.find? name args.length with
    | some _ => .waiting p
    | none => .failed (.unknownCall e.render)
  | assign op target _ =>
    match op.combines? with
    | none => .waiting p
    | some _ =>
      match p.memory.get? target with
      | some value => .waiting (p.push value)
      | none => .failed (.unbound target)
  | group _ => .waiting p
  | unary _ _ => .waiting p
  | binary _ _ _ => .waiting p

/-- Writes a value to a target, and leaves it on the list as the value of the assignment. -/
def writeStep (target : String) (value : Binary64) (p : Progress) : Except EvalError Progress :=
  match p.memory.assign? target value with
  | none => .error (.constantTarget target)
  | some memory => .ok ⟨value :: p.values, memory, (target, value) :: p.writes⟩

/-- The number of values that finishing a node takes: a compound assignment takes its
target's earlier value besides its operand's. -/
def arity : Expr → Nat
  | assign op _ _ => if op.combines?.isSome then 2 else 1
  | e => e.children.length

/-- Finishes a node with the values of its operands (`_finish`); `none` when there are too few. -/
def finishStep (e : Expr) (p : Progress) : Option (Except EvalError Progress) :=
  (p.take? e.arity).bind fun (values, p) =>
    match e, values with
    | group _, [value] => some (.ok (p.push value))
    | unary op _, [value] => some (.ok (p.push (op.apply value)))
    | binary op _ _, [left, right] => some (.ok (p.push (op.apply left right)))
    | call name args, values =>
      match Function.find? name args.length with
      | some f => some (.ok (p.push (f.apply values)))
      | none => some (.error (.unknownCall e.render))
    | assign op target _, [value] => some (writeStep target (op.written value value) p)
    | assign op target _, [current, value] =>
      some (writeStep target (op.written current value) p)
    | _, _ => none

/-- Carries out tasks (the loop of `_interpret`); `none` when a node finds too few values. -/
def runTasks : List Task → Progress → Option (Evaluation Binary64)
  | [], p => p.values.head?.map fun value => ⟨.ok value, p.memory, p.writes.reverse⟩
  | .visit e :: tasks, p =>
    match visitStep e p with
    | .finished q => runTasks tasks q
    | .waiting q => runTasks (visits e.children ++ .finish e :: tasks) q
    | .failed why => some (p.failed why)
  | .finish e :: tasks, p =>
    match finishStep e p with
    | some (.ok q) => runTasks tasks q
    | some (.error why) => some (p.failed why)
    | none => none
termination_by tasks => workLeft tasks
decreasing_by
  · have := size_pos e
    simp only [workLeft_cons, Task.work]
    omega
  · exact workLeft_expand_lt e tasks
  · simp only [workLeft_cons, Task.work]
    omega

/-- The value of an expression in a memory (`evaluate`). -/
def evaluate (e : Expr) (memory : Memory) : Evaluation Binary64 :=
  (runTasks [.visit e] ⟨[], memory, []⟩).getD (.value .nan memory)

end Expr

end Calculator
