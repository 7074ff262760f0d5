/-
  Calculator/Expr/Task.lean
  =========================
  **Walking a tree with a list of tasks** (the stacks of `_interpret` and
  `render`).  A walk visits an expression on the
  way down and finishes it on the way up, and keeps what it has still to do in a
  list, so that trees of any depth can be walked.  The work of a list counts
  every node still to be visited twice, because a visit leaves a task behind
  that finishes the node; it falls with every step of a walk.
-/
import Calculator.Expr

namespace Calculator.Expr

/-- A task of a walk: to visit an expression, or to finish it after its operands. -/
inductive Task where
  | visit (e : Expr)
  | finish (e : Expr)

/-- What one task has still to do. -/
def Task.work : Task → Nat
  | visit e => 2 * e.size
  | finish _ => 1

/-- What a list of tasks has still to do. -/
def workLeft : List Task → Nat
  | [] => 0
  | t :: tasks => t.work + workLeft tasks

/-- The tasks that visit a list of expressions in order. -/
def visits (es : List Expr) : List Task := es.map .visit

@[simp] theorem workLeft_cons (t : Task) (tasks : List Task) :
    workLeft (t :: tasks) = t.work + workLeft tasks := rfl

@[simp] theorem workLeft_visits_append (es : List Expr) (tasks : List Task) :
    workLeft (visits es ++ tasks) = 2 * totalSize es + workLeft tasks := by
  induction es with
  | nil => simp [visits, totalSize]
  | cons e rest ih =>
    have ih' : workLeft (rest.map .visit ++ tasks) = 2 * totalSize rest + workLeft tasks := ih
    simp only [visits, List.map_cons, List.cons_append, workLeft_cons, ih', Task.work, totalSize]
    omega

/-- A node is one more than its operands. -/
theorem totalSize_children (e : Expr) : totalSize e.children + 1 = e.size := by
  cases e <;> simp [children, size, totalSize]

/-- Visiting the operands of a node and finishing it is less work than visiting it. -/
theorem workLeft_expand_lt (e : Expr) (tasks : List Task) :
    workLeft (visits e.children ++ .finish e :: tasks) < workLeft (.visit e :: tasks) := by
  have h := totalSize_children e
  simp only [workLeft_visits_append, workLeft_cons, Task.work]
  omega

/-- Every expression has a node. -/
theorem size_pos (e : Expr) : 0 < e.size := by
  have h := totalSize_children e
  omega

/-- An expression of a list is no larger than the list. -/
theorem size_le_totalSize {e : Expr} {es : List Expr} (h : e ∈ es) : e.size ≤ totalSize es := by
  induction es with
  | nil => cases h
  | cons d rest ih =>
    rw [totalSize]
    rcases List.mem_cons.mp h with rfl | h
    · omega
    · have := ih h
      omega

/-- What holds of a node as soon as it holds of its operands holds of every expression. -/
theorem of_children {P : Expr → Prop} (step : ∀ e, (∀ c ∈ e.children, P c) → P e) (e : Expr) :
    P e :=
  step e fun c h =>
    have : c.size < e.size := by
      have := size_le_totalSize h
      have := totalSize_children e
      omega
    of_children step c
termination_by e.size

end Calculator.Expr
