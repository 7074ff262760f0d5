/-
  Calculator/Proofs/Expr/Rules.lean
  =================================
  **The rules of evaluation.**  Each rule says in which order the operands of a
  node are evaluated, what may end the evaluation, and in which memory.  A rule
  of its own stands for every operand that may fail, so that the rules leave no
  way to go on after an error and no way to take a write back.

  The rules know nothing of tasks and of lists of finished values.  The walk of
  the evaluation comes to exactly what they allow, whatever its lists already
  hold: a visit puts one value on the list of finished values, or stops with the
  error, and no node ever finds too few values there.
-/
import Calculator.Expr.Meaning

namespace Calculator

/-! ### Reading and writing names -/

/-- What reading a name comes to: a constant's value first, or else a variable's. -/
inductive Looks (name : String) (m : Memory) : Except EvalError Binary64 → Prop where
  | constant {value : Binary64} (h : constant? name = some value) : Looks name m (.ok value)
  | bound {value : Binary64} (hconstant : constant? name = none)
      (h : m.bindings.lookup name = some value) : Looks name m (.ok value)
  | unbound (hconstant : constant? name = none) (h : m.bindings.lookup name = none) :
      Looks name m (.error (.unbound name))

/-- What writing a value to a name comes to, and the memory afterwards.  A constant is not
written. -/
inductive Stores (name : String) (value : Binary64) (m : Memory) :
    Except EvalError Binary64 → Memory → Prop where
  | written (h : constant? name = none) :
      Stores name value m (.ok value) ⟨Memory.put name value m.bindings⟩
  | constant {c : Binary64} (h : constant? name = some c) :
      Stores name value m (.error (.constantTarget name)) m

namespace Expr

/-! ### The rules -/

mutual

/-- What an expression comes to in a memory, and the memory afterwards. -/
inductive Evaluates : Expr → Memory → Except EvalError Binary64 → Memory → Prop where
  | number {value : Binary64} {m : Memory} : Evaluates (.number value) m (.ok value) m
  | identifier {name : String} {m : Memory} {r : Except EvalError Binary64}
      (h : Looks name m r) : Evaluates (.identifier name) m r m
  | group {body : Expr} {m n : Memory} {r : Except EvalError Binary64}
      (h : Evaluates body m r n) : Evaluates (.group body) m r n
  | unary {op : UnaryOp} {operand : Expr} {m n : Memory} {a : Binary64}
      (h : Evaluates operand m (.ok a) n) : Evaluates (.unary op operand) m (.ok (op.apply a)) n
  | unaryFails {op : UnaryOp} {operand : Expr} {m n : Memory} {why : EvalError}
      (h : Evaluates operand m (.error why) n) : Evaluates (.unary op operand) m (.error why) n
  | binary {op : BinaryOp} {left right : Expr} {m n k : Memory} {a b : Binary64}
      (hleft : Evaluates left m (.ok a) n) (hright : Evaluates right n (.ok b) k) :
      Evaluates (.binary op left right) m (.ok (op.apply a b)) k
  | leftFails {op : BinaryOp} {left right : Expr} {m n : Memory} {why : EvalError}
      (h : Evaluates left m (.error why) n) : Evaluates (.binary op left right) m (.error why) n
  | rightFails {op : BinaryOp} {left right : Expr} {m n k : Memory} {a : Binary64}
      {why : EvalError} (hleft : Evaluates left m (.ok a) n)
      (hright : Evaluates right n (.error why) k) :
      Evaluates (.binary op left right) m (.error why) k
  /-- A call that no function answers fails before its arguments. -/
  | unknownCall {name : String} {args : List Expr} {m : Memory}
      (h : Function.find? name args.length = none) :
      Evaluates (.call name args) m (.error (.unknownCall (render (.call name args)))) m
  | call {name : String} {args : List Expr} {m n : Memory} {f : Function}
      {values : List Binary64} (hknown : Function.find? name args.length = some f)
      (h : EvaluatesAll args m (.ok values) n) :
      Evaluates (.call name args) m (.ok (f.apply values)) n
  | argumentFails {name : String} {args : List Expr} {m n : Memory} {f : Function}
      {why : EvalError} (hknown : Function.find? name args.length = some f)
      (h : EvaluatesAll args m (.error why) n) : Evaluates (.call name args) m (.error why) n
  | plain {target : String} {value : Expr} {m n k : Memory} {a : Binary64}
      {r : Except EvalError Binary64} (h : Evaluates value m (.ok a) n)
      (hstore : Stores target a n r k) : Evaluates (.assign .assign target value) m r k
  | plainFails {target : String} {value : Expr} {m n : Memory} {why : EvalError}
      (h : Evaluates value m (.error why) n) :
      Evaluates (.assign .assign target value) m (.error why) n
  /-- A compound assignment combines the value that its target had before. -/
  | compound {op : AssignOp} {o : BinaryOp} {target : String} {value : Expr} {m n k : Memory}
      {current a : Binary64} {r : Except EvalError Binary64} (hop : op.combines? = some o)
      (hread : Looks target m (.ok current)) (h : Evaluates value m (.ok a) n)
      (hstore : Stores target (o.apply current a) n r k) :
      Evaluates (.assign op target value) m r k
  | targetFails {op : AssignOp} {o : BinaryOp} {target : String} {value : Expr} {m : Memory}
      {why : EvalError} (hop : op.combines? = some o) (hread : Looks target m (.error why)) :
      Evaluates (.assign op target value) m (.error why) m
  | compoundFails {op : AssignOp} {o : BinaryOp} {target : String} {value : Expr}
      {m n : Memory} {current : Binary64} {why : EvalError} (hop : op.combines? = some o)
      (hread : Looks target m (.ok current)) (h : Evaluates value m (.error why) n) :
      Evaluates (.assign op target value) m (.error why) n

/-- What a list of expressions comes to when they are evaluated once each from the first to
the last. -/
inductive EvaluatesAll :
    List Expr → Memory → Except EvalError (List Binary64) → Memory → Prop where
  | nil {m : Memory} : EvaluatesAll [] m (.ok []) m
  | cons {e : Expr} {rest : List Expr} {m n k : Memory} {a : Binary64}
      {values : List Binary64} (hfirst : Evaluates e m (.ok a) n)
      (hrest : EvaluatesAll rest n (.ok values) k) :
      EvaluatesAll (e :: rest) m (.ok (a :: values)) k
  | firstFails {e : Expr} {rest : List Expr} {m n : Memory} {why : EvalError}
      (h : Evaluates e m (.error why) n) : EvaluatesAll (e :: rest) m (.error why) n
  | restFails {e : Expr} {rest : List Expr} {m n k : Memory} {a : Binary64} {why : EvalError}
      (hfirst : Evaluates e m (.ok a) n) (hrest : EvaluatesAll rest n (.error why) k) :
      EvaluatesAll (e :: rest) m (.error why) k

end

/-! ### Evaluations that come to an outcome -/

/-- An evaluation comes to an outcome and a memory. -/
def ComesTo {α : Type} (x : Evaluation α) (r : Except EvalError α) (n : Memory) : Prop :=
  x.outcome = r ∧ x.memory = n

theorem comesTo_value {α : Type} {a : α} {m n : Memory} {r : Except EvalError α} :
    ComesTo (.value a m) r n ↔ r = .ok a ∧ n = m := by
  simp only [ComesTo, Evaluation.value, eq_comm]

theorem comesTo_failure {α : Type} {why : EvalError} {m n : Memory} {r : Except EvalError α} :
    ComesTo (.failure why m) r n ↔ r = .error why ∧ n = m := by
  simp only [ComesTo, Evaluation.failure, eq_comm]

theorem comesTo_bind_ok {α β : Type} {x : Evaluation α} {a : α} {n : Memory}
    (h : ComesTo x (.ok a) n) {next : α → Memory → Evaluation β} {r : Except EvalError β}
    {k : Memory} (hnext : ComesTo (next a n) r k) : ComesTo (x.bind next) r k := by
  obtain ⟨houtcome, rfl⟩ := h
  simpa [ComesTo, Evaluation.bind, houtcome] using hnext

theorem comesTo_bind_error {α β : Type} {x : Evaluation α} {why : EvalError} {n : Memory}
    (h : ComesTo x (.error why) n) (next : α → Memory → Evaluation β) :
    ComesTo (x.bind next) (.error why) n := by
  obtain ⟨houtcome, rfl⟩ := h
  simp [ComesTo, Evaluation.bind, houtcome]

/-- One evaluation and then another one: the first one fails, or it has a value with which the
second one comes to the outcome. -/
theorem comesTo_bind_cases {α β : Type} {x : Evaluation α} {next : α → Memory → Evaluation β}
    {r : Except EvalError β} {k : Memory} (h : ComesTo (x.bind next) r k) :
    (∃ why, r = .error why ∧ ComesTo x (.error why) k) ∨
      ∃ a n, ComesTo x (.ok a) n ∧ ComesTo (next a n) r k := by
  cases houtcome : x.outcome with
  | error why =>
    simp only [ComesTo, Evaluation.bind, houtcome] at h
    exact Or.inl ⟨why, h.1.symm, houtcome, h.2⟩
  | ok a =>
    simp only [ComesTo, Evaluation.bind, houtcome] at h
    exact Or.inr ⟨a, x.memory, ⟨houtcome, rfl⟩, h⟩

/-- Reading a name comes to a value exactly if the memory has one. -/
theorem looks_ok_iff {name : String} {m : Memory} {value : Binary64} :
    Looks name m (.ok value) ↔ m.get? name = some value := by
  constructor
  · intro h
    cases h with
    | constant h => simp [Memory.get?, h]
    | bound hconstant h => simp [Memory.get?, hconstant, h]
  · intro h
    cases hconstant : constant? name with
    | some c =>
      simp only [Memory.get?, hconstant, Option.some_or, Option.some.injEq] at h
      exact .constant (h ▸ hconstant)
    | none =>
      simp only [Memory.get?, hconstant, Option.none_or] at h
      exact .bound hconstant h

theorem looks_error_iff {name : String} {m : Memory} {why : EvalError} :
    Looks name m (.error why) ↔ m.get? name = none ∧ why = .unbound name := by
  constructor
  · intro h
    cases h with
    | unbound hconstant h => simp [Memory.get?, hconstant, h]
  · rintro ⟨h, rfl⟩
    simp only [Memory.get?, Option.or_eq_none_iff] at h
    exact .unbound h.1 h.2

theorem comesTo_write_iff {name : String} {value : Binary64} {m n : Memory}
    {r : Except EvalError Binary64} :
    ComesTo (.write name value m) r n ↔ Stores name value m r n := by
  cases hconstant : constant? name with
  | some c =>
    simp only [Evaluation.write, Memory.assign?, hconstant, Option.isSome_some, if_true,
      comesTo_failure]
    constructor
    · rintro ⟨rfl, rfl⟩
      exact .constant hconstant
    · intro h
      cases h with
      | written h => simp [hconstant] at h
      | constant h => exact ⟨rfl, rfl⟩
  | none =>
    simp only [Evaluation.write, Memory.assign?, hconstant, Option.isSome_none,
      Bool.false_eq_true, if_false, ComesTo]
    constructor
    · rintro ⟨rfl, rfl⟩
      exact .written hconstant
    · intro h
      cases h with
      | written h => exact ⟨rfl, rfl⟩
      | constant h => simp [hconstant] at h

/-! ### What the rules allow is the meaning -/

theorem comesTo_of_evaluatesAll {es : List Expr}
    (each : ∀ e ∈ es, ∀ {m n : Memory} {r : Except EvalError Binary64},
      Evaluates e m r n → ComesTo (meaning e m) r n)
    {m n : Memory} {r : Except EvalError (List Binary64)} (h : EvaluatesAll es m r n) :
    ComesTo (meanings es m) r n := by
  induction es generalizing m r with
  | nil =>
    cases h with
    | nil => exact ⟨rfl, rfl⟩
  | cons e rest ih =>
    have first := @each e List.mem_cons_self
    have others := @ih fun d hd => each d (List.mem_cons_of_mem e hd)
    rw [meanings]
    cases h with
    | cons hfirst hrest =>
      exact comesTo_bind_ok (first hfirst) (comesTo_bind_ok (others hrest) ⟨rfl, rfl⟩)
    | firstFails h => exact comesTo_bind_error (first h) _
    | restFails hfirst hrest =>
      exact comesTo_bind_ok (first hfirst) (comesTo_bind_error (others hrest) _)

theorem comesTo_of_evaluates (e : Expr) {m n : Memory} {r : Except EvalError Binary64}
    (h : Evaluates e m r n) : ComesTo (meaning e m) r n := by
  induction e using of_children generalizing m n r with
  | step e ih =>
    have each : ∀ c ∈ e.children, ∀ {m n : Memory} {r : Except EvalError Binary64},
        Evaluates c m r n → ComesTo (meaning c m) r n := fun c hc => ih c hc
    cases h with
    | number => exact ⟨rfl, rfl⟩
    | identifier h =>
      rw [meaning]
      cases r with
      | ok value =>
        rw [looks_ok_iff.mp h]
        exact ⟨rfl, rfl⟩
      | error why =>
        obtain ⟨hnone, rfl⟩ := looks_error_iff.mp h
        rw [hnone]
        exact ⟨rfl, rfl⟩
    | group h =>
      rw [meaning]
      exact each _ (by simp [children]) h
    | unary h => exact comesTo_bind_ok (each _ (by simp [children]) h) ⟨rfl, rfl⟩
    | unaryFails h => exact comesTo_bind_error (each _ (by simp [children]) h) _
    | binary hleft hright =>
      exact comesTo_bind_ok (each _ (by simp [children]) hleft)
        (comesTo_bind_ok (each _ (by simp [children]) hright) ⟨rfl, rfl⟩)
    | leftFails h => exact comesTo_bind_error (each _ (by simp [children]) h) _
    | rightFails hleft hright =>
      exact comesTo_bind_ok (each _ (by simp [children]) hleft)
        (comesTo_bind_error (each _ (by simp [children]) hright) _)
    | unknownCall h =>
      rw [meaning, h]
      exact ⟨rfl, rfl⟩
    | call hknown h =>
      rw [meaning, hknown]
      exact comesTo_bind_ok (comesTo_of_evaluatesAll each h) ⟨rfl, rfl⟩
    | argumentFails hknown h =>
      rw [meaning, hknown]
      exact comesTo_bind_error (comesTo_of_evaluatesAll each h) _
    | plain h hstore =>
      exact comesTo_bind_ok (each _ (by simp [children]) h) (comesTo_write_iff.mpr hstore)
    | plainFails h => exact comesTo_bind_error (each _ (by simp [children]) h) _
    | compound hop hread h hstore =>
      simp only [meaning, hop, looks_ok_iff.mp hread]
      exact comesTo_bind_ok (each _ (by simp [children]) h) (comesTo_write_iff.mpr hstore)
    | targetFails hop hread =>
      obtain ⟨hnone, rfl⟩ := looks_error_iff.mp hread
      simp only [meaning, hop, hnone]
      exact ⟨rfl, rfl⟩
    | compoundFails hop hread h =>
      simp only [meaning, hop, looks_ok_iff.mp hread]
      exact comesTo_bind_error (each _ (by simp [children]) h) _

/-! ### The rules allow the meaning -/

theorem evaluatesAll_of_comesTo {es : List Expr}
    (each : ∀ e ∈ es, ∀ {m n : Memory} {r : Except EvalError Binary64},
      ComesTo (meaning e m) r n → Evaluates e m r n)
    {m n : Memory} {r : Except EvalError (List Binary64)} (h : ComesTo (meanings es m) r n) :
    EvaluatesAll es m r n := by
  induction es generalizing m n r with
  | nil =>
    obtain ⟨rfl, rfl⟩ := comesTo_value.mp h
    exact .nil
  | cons e rest ih =>
    have first := @each e List.mem_cons_self
    have others := @ih fun d hd => each d (List.mem_cons_of_mem e hd)
    rw [meanings] at h
    rcases comesTo_bind_cases h with ⟨why, rfl, hfirst⟩ | ⟨a, k, hfirst, h⟩
    · exact .firstFails (first hfirst)
    · rcases comesTo_bind_cases h with ⟨why, rfl, hrest⟩ | ⟨values, l, hrest, h⟩
      · exact .restFails (first hfirst) (others hrest)
      · obtain ⟨rfl, rfl⟩ := comesTo_value.mp h
        exact .cons (first hfirst) (others hrest)

theorem evaluates_assign_of_comesTo {op : AssignOp} {target : String} {value : Expr}
    (hvalue : ∀ {m n : Memory} {r : Except EvalError Binary64},
      ComesTo (meaning value m) r n → Evaluates value m r n)
    {m n : Memory} {r : Except EvalError Binary64}
    (h : ComesTo (meaning (.assign op target value) m) r n) :
    Evaluates (.assign op target value) m r n := by
  rw [meaning] at h
  split at h
  · next hop =>
    have hplain : op = .assign := by
      cases op with
      | assign => rfl
      | _ => simp [AssignOp.combines?] at hop
    subst hplain
    rcases comesTo_bind_cases h with ⟨why, rfl, hfails⟩ | ⟨a, k, ha, h⟩
    · exact .plainFails (hvalue hfails)
    · exact .plain (hvalue ha) (comesTo_write_iff.mp h)
  · next o hop =>
    split at h
    · next current hbound =>
      have hread := looks_ok_iff.mpr hbound
      rcases comesTo_bind_cases h with ⟨why, rfl, hfails⟩ | ⟨a, k, ha, h⟩
      · exact .compoundFails hop hread (hvalue hfails)
      · exact .compound hop hread (hvalue ha) (comesTo_write_iff.mp h)
    · next hunbound =>
      obtain ⟨rfl, rfl⟩ := comesTo_failure.mp h
      exact .targetFails hop (looks_error_iff.mpr ⟨hunbound, rfl⟩)

theorem evaluates_of_comesTo (e : Expr) {m n : Memory} {r : Except EvalError Binary64}
    (h : ComesTo (meaning e m) r n) : Evaluates e m r n := by
  induction e using of_children generalizing m n r with
  | step e ih =>
    have each : ∀ c ∈ e.children, ∀ {m n : Memory} {r : Except EvalError Binary64},
        ComesTo (meaning c m) r n → Evaluates c m r n := fun c hc => ih c hc
    cases e with
    | number value =>
      obtain ⟨rfl, rfl⟩ := comesTo_value.mp h
      exact .number
    | identifier name =>
      rw [meaning] at h
      split at h
      · next value hbound =>
        obtain ⟨rfl, rfl⟩ := comesTo_value.mp h
        exact .identifier (looks_ok_iff.mpr hbound)
      · next hunbound =>
        obtain ⟨rfl, rfl⟩ := comesTo_failure.mp h
        exact .identifier (looks_error_iff.mpr ⟨hunbound, rfl⟩)
    | group body =>
      rw [meaning] at h
      exact .group (each body (by simp [children]) h)
    | unary op operand =>
      have hoperand := @each operand (by simp [children])
      rcases comesTo_bind_cases h with ⟨why, rfl, hfails⟩ | ⟨a, k, ha, h⟩
      · exact .unaryFails (hoperand hfails)
      · obtain ⟨rfl, rfl⟩ := comesTo_value.mp h
        exact .unary (hoperand ha)
    | binary op left right =>
      have hleft := @each left (by simp [children])
      have hright := @each right (by simp [children])
      rcases comesTo_bind_cases h with ⟨why, rfl, hfails⟩ | ⟨a, k, ha, h⟩
      · exact .leftFails (hleft hfails)
      · rcases comesTo_bind_cases h with ⟨why, rfl, hfails⟩ | ⟨b, l, hb, h⟩
        · exact .rightFails (hleft ha) (hright hfails)
        · obtain ⟨rfl, rfl⟩ := comesTo_value.mp h
          exact .binary (hleft ha) (hright hb)
    | call name args =>
      rw [meaning] at h
      split at h
      · next f hknown =>
        rcases comesTo_bind_cases h with ⟨why, rfl, hfails⟩ | ⟨values, k, hvalues, h⟩
        · exact .argumentFails hknown (evaluatesAll_of_comesTo each hfails)
        · obtain ⟨rfl, rfl⟩ := comesTo_value.mp h
          exact .call hknown (evaluatesAll_of_comesTo each hvalues)
      · next hunknown =>
        obtain ⟨rfl, rfl⟩ := comesTo_failure.mp h
        exact .unknownCall hunknown
    | assign op target value =>
      exact evaluates_assign_of_comesTo (@each value (by simp [children])) h

/-! ### The walk obeys the rules -/

/-- **The walk of the evaluation is the recursive evaluation.**  An expression is evaluated to
an outcome and a memory if and only if the rules allow them, and the walk ends without a node
that finds too few values.  In the middle of any other work the walk of the expression leaves
the finished values and the tasks of this work as they are: it puts its one value on top of
them, or it ends the whole walk with its error. -/
theorem evaluate_iff_evaluates (e : Expr) (m : Memory) :
    (∀ r n, (e.evaluate m).outcome = r ∧ (e.evaluate m).memory = n ↔ Evaluates e m r n) ∧
    runTasks [.visit e] ⟨[], m, []⟩ = some (e.evaluate m) ∧
    ∀ values writes tasks, runTasks (.visit e :: tasks) ⟨values, m, writes⟩ =
      match (e.evaluate m).outcome with
      | .ok a => runTasks tasks
          ⟨a :: values, (e.evaluate m).memory, (e.evaluate m).writes.reverse ++ writes⟩
      | .error why => some
          ⟨.error why, (e.evaluate m).memory, writes.reverse ++ (e.evaluate m).writes⟩ := by
  rw [evaluate_eq_meaning]
  have hvisit : ∀ values writes tasks, runTasks (.visit e :: tasks) ⟨values, m, writes⟩ =
      resume (meaning e m) tasks ⟨values, m, writes⟩ := by
    intro values writes tasks
    exact runTasks_visit e tasks ⟨values, m, writes⟩
  refine ⟨?_, ?_, hvisit⟩
  · intro r n
    constructor
    · exact evaluates_of_comesTo e
    · exact comesTo_of_evaluates e
  · rw [hvisit, resume]
    cases houtcome : (meaning e m).outcome with
    | ok a => simp [runTasks, ← houtcome]
    | error why => simp [← houtcome]

end Expr

end Calculator
