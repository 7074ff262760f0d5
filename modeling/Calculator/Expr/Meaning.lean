/-
  Calculator/Expr/Meaning.lean
  ============================
  **The value of an expression by recursion.**  The meaning of a node is said in
  terms of the meanings of its operands, evaluated one after the other.  The
  walk of the evaluation comes to this meaning whatever its lists already hold:
  it puts one value on the list, or it stops with the error, and in both cases
  it has made the same writes.
-/
import Calculator.Expr.Evaluate

namespace Calculator

/-! ### Writing -/

/-- The evaluation that writes a value to a target. -/
def Evaluation.write (target : String) (value : Binary64) (m : Memory) : Evaluation Binary64 :=
  match m.assign? target value with
  | none => .failure (.constantTarget target) m
  | some memory => ⟨.ok value, memory, [(target, value)]⟩

namespace Expr

/-! ### Meanings -/

mutual

/-- The value of an expression in a memory. -/
def meaning : Expr → Memory → Evaluation Binary64
  | .number value, m => .value value m
  | .identifier name, m =>
    match m.get? name with
    | some value => .value value m
    | none => .failure (.unbound name) m
  | .group body, m => meaning body m
  | .unary op operand, m => (meaning operand m).bind fun a => .value (op.apply a)
  | .binary op left right, m =>
    (meaning left m).bind fun a m => (meaning right m).bind fun b => .value (op.apply a b)
  | .call name args, m =>
    match Function.find? name args.length with
    | some f => (meanings args m).bind fun values => .value (f.apply values)
    | none => .failure (.unknownCall (render (.call name args))) m
  | .assign op target value, m =>
    match op.combines? with
    | none => (meaning value m).bind (.write target)
    | some o =>
      match m.get? target with
      | some current => (meaning value m).bind fun v => .write target (o.apply current v)
      | none => .failure (.unbound target) m

/-- The values of expressions that are evaluated in turn. -/
def meanings : List Expr → Memory → Evaluation (List Binary64)
  | [], m => .value [] m
  | e :: rest, m =>
    (meaning e m).bind fun a m => (meanings rest m).bind fun values => .value (a :: values)

end

/-! ### The rest of a run -/

/-- Goes on with further tasks after an evaluation whose value is put on the list. -/
def resume (x : Evaluation Binary64) (tasks : List Task) (p : Progress) :
    Option (Evaluation Binary64) :=
  match x.outcome with
  | .ok value => runTasks tasks ⟨value :: p.values, x.memory, x.writes.reverse ++ p.writes⟩
  | .error e => some ⟨.error e, x.memory, p.writes.reverse ++ x.writes⟩

/-- Goes on with further tasks after the evaluation of a list of expressions. -/
def resumeAll (x : Evaluation (List Binary64)) (tasks : List Task) (p : Progress) :
    Option (Evaluation Binary64) :=
  match x.outcome with
  | .ok values =>
    runTasks tasks ⟨values.reverse ++ p.values, x.memory, x.writes.reverse ++ p.writes⟩
  | .error e => some ⟨.error e, x.memory, p.writes.reverse ++ x.writes⟩

/-- After a value, the run goes on with the value on the list. -/
theorem resume_value (a : Binary64) (tasks : List Task) (p : Progress) :
    resume (.value a p.memory) tasks p = runTasks tasks (p.push a) := by
  simp [resume, Evaluation.value, Progress.push]

/-- After a failure, the run ends with its error. -/
theorem resume_failure (e : EvalError) (tasks : List Task) (p : Progress) :
    resume (.failure e p.memory) tasks p = some (p.failed e) := by
  simp [resume, Evaluation.failure, Progress.failed]

/-- An evaluation that goes on to another one: the rest of the run depends on the first only
through its value, its memory and its writes. -/
theorem resume_bind {α : Type} (x : Evaluation α) (next : α → Memory → Evaluation Binary64)
    (tasks : List Task) (p : Progress) :
    resume (x.bind next) tasks p =
      match x.outcome with
      | .ok a => resume (next a x.memory) tasks ⟨p.values, x.memory, x.writes.reverse ++ p.writes⟩
      | .error e => some ⟨.error e, x.memory, p.writes.reverse ++ x.writes⟩ := by
  cases h : x.outcome with
  | ok a => simp [resume, Evaluation.bind, h]
  | error e => simp [resume, Evaluation.bind, h]

/-! ### Finishing a node -/

/-- The values that were put on the list last come off it in the order in which they were
finished. -/
theorem take?_own (values others : List Binary64) (m : Memory) (w : List (String × Binary64)) :
    Progress.take? ⟨values.reverse ++ others, m, w⟩ values.length
      = some (values, ⟨others, m, w⟩) := by
  have own : (values.reverse ++ others).take values.length = values.reverse :=
    List.take_left' (by simp)
  have rest : (values.reverse ++ others).drop values.length = others :=
    List.drop_left' (by simp)
  simp [Progress.take?, own, rest]

@[simp] theorem take?_one (a : Binary64) (others : List Binary64) (m : Memory)
    (w : List (String × Binary64)) :
    Progress.take? ⟨a :: others, m, w⟩ 1 = some ([a], ⟨others, m, w⟩) :=
  take?_own [a] others m w

@[simp] theorem take?_two (a b : Binary64) (others : List Binary64) (m : Memory)
    (w : List (String × Binary64)) :
    Progress.take? ⟨b :: a :: others, m, w⟩ 2 = some ([a, b], ⟨others, m, w⟩) :=
  take?_own [a, b] others m w

/-! ### The walk comes to the meaning -/

/-- Every expression of a list has one value. -/
theorem length_meanings {es : List Expr} {m : Memory} {values : List Binary64}
    (h : (meanings es m).outcome = .ok values) : values.length = es.length := by
  induction es generalizing m values with
  | nil =>
    simp only [meanings, Evaluation.value, Except.ok.injEq] at h
    simp [← h]
  | cons e rest ih =>
    simp only [meanings, Evaluation.bind] at h
    split at h
    · simp at h
    · split at h
      · simp at h
      · next tail htail =>
        simp only [Evaluation.value, Except.ok.injEq] at h
        simp [← h, ih htail]

/-- After the evaluation of a list, the run depends on its first expression and then on the
evaluation of the others. -/
theorem resumeAll_cons (e : Expr) (rest : List Expr) (tasks : List Task) (p : Progress) :
    resumeAll (meanings (e :: rest) p.memory) tasks p =
      match (meaning e p.memory).outcome with
      | .ok a =>
        resumeAll (meanings rest (meaning e p.memory).memory) tasks
          ⟨a :: p.values, (meaning e p.memory).memory,
            (meaning e p.memory).writes.reverse ++ p.writes⟩
      | .error why =>
        some ⟨.error why, (meaning e p.memory).memory,
          p.writes.reverse ++ (meaning e p.memory).writes⟩ := by
  cases h : (meaning e p.memory).outcome with
  | error why => simp [resumeAll, meanings, Evaluation.bind, h]
  | ok a =>
    cases k : (meanings rest (meaning e p.memory).memory).outcome with
    | error why => simp [resumeAll, meanings, Evaluation.bind, h, k]
    | ok values => simp [resumeAll, meanings, Evaluation.bind, Evaluation.value, h, k]

/-- Visiting expressions in order evaluates them in turn, if visiting each one evaluates it. -/
theorem runTasks_visits {es : List Expr}
    (each : ∀ e ∈ es, ∀ tasks p,
      runTasks (.visit e :: tasks) p = resume (meaning e p.memory) tasks p)
    (tasks : List Task) (p : Progress) :
    runTasks (visits es ++ tasks) p = resumeAll (meanings es p.memory) tasks p := by
  induction es generalizing p with
  | nil => simp [visits, resumeAll, meanings, Evaluation.value]
  | cons e rest ih =>
    have first := each e List.mem_cons_self (visits rest ++ tasks) p
    rw [resumeAll_cons]
    refine first.trans ?_
    rw [resume]
    split
    · next a h => exact ih (fun d k => each d (List.mem_cons_of_mem e k)) _
    · rfl

/-- Finishing a call applies the function to the values of its arguments. -/
theorem finishStep_call {name : String} {args : List Expr} {f : Function}
    (known : Function.find? name args.length = some f) {values : List Binary64}
    (own : values.length = args.length) (others : List Binary64) (m : Memory)
    (w : List (String × Binary64)) :
    finishStep (.call name args) ⟨values.reverse ++ others, m, w⟩
      = some (.ok ⟨f.apply values :: others, m, w⟩) := by
  have taken := take?_own values others m w
  rw [own] at taken
  simp [finishStep, arity, children, taken, known, Progress.push]

/-- Finishing an assignment takes the assigned value off the list, and with a compound operator
the target's earlier value as well, and writes. -/
theorem finishStep_write (op : AssignOp) (target : String) (e : Expr) (current value : Binary64)
    (others : List Binary64) (m : Memory) (w : List (String × Binary64)) :
    finishStep (.assign op target e)
        ⟨value :: (if op.combines?.isSome then current :: others else others), m, w⟩
      = some (writeStep target (op.written current value) ⟨others, m, w⟩) := by
  cases h : op.combines? with
  | none => simp [finishStep, arity, AssignOp.written, h]
  | some o => simp [finishStep, arity, AssignOp.written, h]

/-- A run that finishes an assignment writes, and goes on. -/
theorem runTasks_write (op : AssignOp) (target : String) (e : Expr) (current value : Binary64)
    (others : List Binary64) (m : Memory) (w : List (String × Binary64)) (tasks : List Task) :
    runTasks (.finish (.assign op target e) :: tasks)
        ⟨value :: (if op.combines?.isSome then current :: others else others), m, w⟩
      = resume (.write target (op.written current value) m) tasks ⟨others, m, w⟩ := by
  rw [runTasks, finishStep_write]
  cases h : m.assign? target (op.written current value) with
  | none => simp [writeStep, Evaluation.write, h, resume, Evaluation.failure, Progress.failed]
  | some memory => simp [writeStep, Evaluation.write, h, resume]

/-- Visiting an expression puts its value on the list, or stops with its error. -/
theorem runTasks_visit (e : Expr) (tasks : List Task) (p : Progress) :
    runTasks (.visit e :: tasks) p = resume (meaning e p.memory) tasks p := by
  induction e using of_children generalizing tasks p with
  | step e ih =>
    rw [runTasks]
    cases e with
    | number value => simp only [visitStep, meaning, resume_value]
    | identifier name =>
      simp only [visitStep, meaning]
      cases p.memory.get? name with
      | none => simp only [resume_failure]
      | some value => simp only [resume_value]
    | group body =>
      have inner := ih body (by simp [children]) (.finish (.group body) :: tasks) p
      simp only [visitStep, visits, children, List.map_cons, List.map_nil, List.cons_append,
        List.nil_append, meaning, inner]
      simp only [resume]
      split
      · simp [runTasks, finishStep, arity, children, Progress.push]
      · rfl
    | unary op operand =>
      have inner := ih operand (by simp [children]) (.finish (.unary op operand) :: tasks) p
      simp only [visitStep, visits, children, List.map_cons, List.map_nil, List.cons_append,
        List.nil_append, meaning, inner, resume_bind]
      rw [resume]
      split
      · next a h =>
        simp [runTasks, finishStep, arity, children, Progress.push, h, resume,
          Evaluation.value]
      · next why h => simp [h]
    | binary op left right =>
      have first := ih left (by simp [children])
        (.visit right :: .finish (.binary op left right) :: tasks) p
      have second := ih right (by simp [children]) (.finish (.binary op left right) :: tasks)
      simp only [visitStep, visits, children, List.map_cons, List.map_nil, List.cons_append,
        List.nil_append, meaning, first, resume_bind]
      rw [resume]
      split
      · next a h =>
        simp only [h, second]
        rw [resume]
        split
        · next b k =>
          simp [runTasks, finishStep, arity, children, Progress.push, k, resume,
            Evaluation.value]
        · next why k => simp [k]
      · next why h => simp [h]
    | call name args =>
      simp only [visitStep, meaning]
      cases known : Function.find? name args.length with
      | none => simp only [resume_failure]
      | some f =>
        have each : ∀ d ∈ args, ∀ tasks p,
            runTasks (.visit d :: tasks) p = resume (meaning d p.memory) tasks p :=
          fun d h => ih d (by simpa [children] using h)
        have all := runTasks_visits each (.finish (.call name args) :: tasks) p
        simp only [children, all, resume_bind]
        rw [resumeAll]
        split
        · next values h =>
          rw [runTasks, finishStep_call known (length_meanings h)]
          simp [h, resume, Evaluation.value]
        · next why h => simp [h]
    | assign op target value =>
      have inner := ih value (by simp [children]) (.finish (.assign op target value) :: tasks)
      simp only [visitStep, meaning]
      cases h : op.combines? with
      | none =>
        simp only [visits, children, List.map_cons, List.map_nil, List.cons_append,
          List.nil_append, inner, resume_bind]
        rw [resume]
        split
        · next v k =>
          have write := runTasks_write op target value v v p.values
          simp only [h, Option.isSome_none, Bool.false_eq_true, if_false, AssignOp.written]
            at write
          rw [write, k]
        · next why k => simp [k]
      | some o =>
        cases bound : p.memory.get? target with
        | none => simp only [resume_failure]
        | some current =>
          simp only [visits, children, List.map_cons, List.map_nil, List.cons_append,
            List.nil_append, inner, resume_bind, Progress.push]
          rw [resume]
          split
          · next v k =>
            have write := runTasks_write op target value current v p.values
            simp only [h, Option.isSome_some, if_true, AssignOp.written] at write
            rw [write, k]
          · next why k => simp [k]

/-- The walk with lists comes to the meaning. -/
theorem evaluate_eq_meaning (e : Expr) (m : Memory) : e.evaluate m = meaning e m := by
  rw [evaluate, runTasks_visit, resume]
  obtain ⟨outcome, memory, writes⟩ := meaning e m
  cases outcome with
  | ok a => simp [runTasks]
  | error why => simp

end Expr

end Calculator
