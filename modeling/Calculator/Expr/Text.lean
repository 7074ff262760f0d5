/-
  Calculator/Expr/Text.lean
  =========================
  **The canonical text by recursion.**  The text of a node is made of the texts
  of its operands in source order.  The walk of the rendering computes this text
  whatever its lists already hold: it takes exactly the texts of a node's own
  operands, never finds too few, and leaves one text for the whole tree.
-/
import Calculator.Expr.Render

namespace Calculator.Expr

mutual

/-- The text of an expression from the texts of its operands. -/
def text : Expr → String
  | .number value => nodeText (.number value) []
  | .identifier name => nodeText (.identifier name) []
  | .group body => nodeText (.group body) [body.text]
  | .unary op operand => nodeText (.unary op operand) [operand.text]
  | .binary op left right => nodeText (.binary op left right) [left.text, right.text]
  | .call name args => nodeText (.call name args) (texts args)
  | .assign op target value => nodeText (.assign op target value) [value.text]

/-- The texts of a list of expressions. -/
def texts : List Expr → List String
  | [] => []
  | e :: rest => e.text :: texts rest

end

@[simp] theorem texts_nil : texts [] = [] := rfl

@[simp] theorem texts_cons (e : Expr) (rest : List Expr) :
    texts (e :: rest) = e.text :: texts rest := rfl

@[simp] theorem length_texts (es : List Expr) : (texts es).length = es.length := by
  induction es with
  | nil => rfl
  | cons e rest ih => simp [ih]

theorem text_eq_nodeText (e : Expr) : e.text = e.nodeText (texts e.children) := by
  cases e <;> rfl

/-- Finishing a node on top of the texts of its operands puts its text in their place. -/
theorem renderTasks_finish (e : Expr) (tasks : List Task) (done : List String) :
    renderTasks (.finish e :: tasks) ((texts e.children).reverse ++ done)
      = renderTasks tasks (e.text :: done) := by
  have enough : ¬((texts e.children).reverse ++ done).length < e.children.length := by simp
  have own : ((texts e.children).reverse ++ done).take e.children.length
      = (texts e.children).reverse := List.take_left' (by simp)
  have others : ((texts e.children).reverse ++ done).drop e.children.length = done :=
    List.drop_left' (by simp)
  rw [renderTasks, if_neg enough, own, others, List.reverse_reverse, ← text_eq_nodeText]

/-- Visiting expressions in order puts their texts on the list, if visiting each one does. -/
theorem renderTasks_visits {es : List Expr}
    (each : ∀ e ∈ es, ∀ tasks done,
      renderTasks (.visit e :: tasks) done = renderTasks tasks (e.text :: done))
    (tasks : List Task) (done : List String) :
    renderTasks (visits es ++ tasks) done = renderTasks tasks ((texts es).reverse ++ done) := by
  induction es generalizing done with
  | nil => rfl
  | cons e rest ih =>
    have first := each e List.mem_cons_self (visits rest ++ tasks) done
    have others := ih (fun d h => each d (List.mem_cons_of_mem e h)) (e.text :: done)
    simp only [texts_cons, List.reverse_cons, List.append_assoc, List.cons_append,
      List.nil_append]
    exact first.trans others

/-- Visiting an expression puts its text on the list. -/
theorem renderTasks_visit (e : Expr) (tasks : List Task) (done : List String) :
    renderTasks (.visit e :: tasks) done = renderTasks tasks (e.text :: done) := by
  induction e using of_children generalizing tasks done with
  | step e ih =>
    rw [renderTasks]
    split
    · next hleaf => rw [text_eq_nodeText, List.isEmpty_iff.mp hleaf, texts_nil]
    · rw [renderTasks_visits ih, renderTasks_finish]

theorem render_eq_text (e : Expr) : e.render = e.text := by
  simp [render, renderTasks_visit, renderTasks]

end Calculator.Expr
