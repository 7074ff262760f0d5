/-
  Calculator/Proofs/Expr/Compound.lean
  ====================================
  **A compound assignment is short for a plain one.**  `x += e` is short for
  `x = (x + (e))`, and likewise for every operator whose text ends with an equals
  sign.  Both read the target before anything else, so that a target without a
  value is the first error of both, and an assignment of the target inside `e`
  comes too late to be read.  Both write once, after everything else, so that a
  constant is protected only then, and whatever `e` has written stays.

  The two are one chain of evaluations that is cut in different places: the
  compound assignment combines and writes in one step, the plain one combines
  inside its value.  Where a chain is cut makes no difference.
-/
import Calculator.Expr.Meaning

namespace Calculator

/-! ### Chains of evaluations -/

namespace Evaluation

variable {α β γ : Type}

theorem value_bind (a : α) (m : Memory) (next : α → Memory → Evaluation β) :
    (value a m).bind next = next a m := by
  simp [Evaluation.bind, value]

theorem failure_bind (why : EvalError) (m : Memory) (next : α → Memory → Evaluation β) :
    (failure why m).bind next = failure why m := rfl

/-- Where a chain is cut makes no difference. -/
theorem bind_assoc (x : Evaluation α) (next : α → Memory → Evaluation β)
    (last : β → Memory → Evaluation γ) :
    (x.bind next).bind last = x.bind fun a m => (next a m).bind last := by
  obtain ⟨outcome, memory, writes⟩ := x
  cases outcome with
  | error why => rfl
  | ok a =>
    cases h : (next a memory).outcome with
    | error why => simp [Evaluation.bind, h]
    | ok b => simp [Evaluation.bind, h]

end Evaluation

/-! ### Compound operators -/

/-- The texts say which operator a compound assignment applies. -/
theorem AssignOp.combines?_eq_some_iff (op : AssignOp) (o : BinaryOp) :
    op.combines? = some o ↔ op.text = o.text ++ "=" := by
  cases op <;> cases o <;> decide

namespace Expr

/-- The plain assignment that a compound one is short for, with parentheses around the combined
value and around the assigned one. -/
def expanded (o : BinaryOp) (target : String) (value : Expr) : Expr :=
  .assign .assign target (.group (.binary o (.identifier target) (.group value)))

/-- The combination of a name's value with another one. -/
theorem meaning_combination (o : BinaryOp) (target : String) (value : Expr) (m : Memory) :
    meaning (.group (.binary o (.identifier target) (.group value))) m =
      match m.get? target with
      | some current => (meaning value m).bind fun v => .value (o.apply current v)
      | none => .failure (.unbound target) m := by
  simp only [meaning]
  cases m.get? target with
  | none => exact Evaluation.failure_bind _ _ _
  | some current => exact Evaluation.value_bind _ _ _

theorem meaning_expanded {op : AssignOp} {o : BinaryOp} (hop : op.combines? = some o)
    (target : String) (value : Expr) (m : Memory) :
    meaning (.assign op target value) m = meaning (expanded o target value) m := by
  have hexpanded : meaning (expanded o target value) m =
      (meaning (.group (.binary o (.identifier target) (.group value))) m).bind
        (.write target) := rfl
  rw [hexpanded, meaning_combination]
  simp only [meaning, hop]
  cases m.get? target with
  | none => exact (Evaluation.failure_bind _ _ _).symm
  | some current =>
    -- the combined value is written by the step that combines
    rw [Evaluation.bind_assoc]
    simp only [Evaluation.value_bind]

/-- **A compound assignment is the plain assignment that it is short for.**  For every operator
that is written as a binary one and an equals sign, the two come to one value or one error, and
leave the same variables in the same order after the same writes.  Nothing is asked of the
target, which may be a constant or have no value, nor of the assigned expression, which may
write the target or fail after it has written.  In the middle of any other work each may stand
for the other. -/
theorem evaluate_compound (op : AssignOp) (o : BinaryOp) (hop : op.text = o.text ++ "=")
    (target : String) (value : Expr) :
    (∀ m, (Expr.assign op target value).evaluate m = (expanded o target value).evaluate m) ∧
    ∀ tasks p, runTasks (.visit (.assign op target value) :: tasks) p =
      runTasks (.visit (expanded o target value) :: tasks) p := by
  have hmeaning := meaning_expanded ((op.combines?_eq_some_iff o).mpr hop) target value
  constructor
  · intro m
    rw [evaluate_eq_meaning, evaluate_eq_meaning, hmeaning]
  · intro tasks p
    rw [runTasks_visit, runTasks_visit, hmeaning]

/-- The value of `x *= (x = -x) + z`, which writes the target and then fails. -/
def overwriting : Expr :=
  .binary .add (.group (.assign .assign "x" (.unary .minus (.identifier "x"))))
    (.identifier "z")

/-- The write inside the value stays, and nothing is written after it. -/
theorem evaluate_overwriting :
    AssignOp.mul.text = BinaryOp.mul.text ++ "=" ∧
      ((Expr.assign .mul "x" overwriting).evaluate ⟨[("x", .one false)]⟩).outcome
        = .error (.unbound "z") ∧
      ((expanded .mul "x" overwriting).evaluate ⟨[("x", .one false)]⟩).outcome
        = .error (.unbound "z") ∧
      ((expanded .mul "x" overwriting).evaluate ⟨[("x", .one false)]⟩).memory
        = ⟨[("x", .one true)]⟩ := by
  have hop : AssignOp.mul.text = BinaryOp.mul.text ++ "=" := by decide
  obtain ⟨hsame, -⟩ := evaluate_compound .mul .mul hop "x" overwriting
  have hcompound : (Expr.assign .mul "x" overwriting).evaluate ⟨[("x", .one false)]⟩
      = ⟨.error (.unbound "z"), ⟨[("x", .one true)]⟩, [("x", .one true)]⟩ := by
    rw [evaluate_eq_meaning]
    rfl
  rw [← hsame, hcompound]
  exact ⟨hop, rfl, rfl, rfl⟩

end Expr

end Calculator
