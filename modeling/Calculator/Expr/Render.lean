/-
  Calculator/Expr/Render.lean
  ===========================
  **The canonical text of an expression** (`render`): every binary operation and
  every assignment has its own parentheses, so that no precedence is left to know.
  Parentheses of the source stay only around what has none of its own, a unary
  plus disappears, and a minus before a text that starts with a minus is set
  apart from it, because two of them would be one symbol.

  The text is built from the bottom up by a walk with a list of finished texts.
  Each node takes the texts of its operands off the list and puts its own there.
  A node without operands is finished at once, also a call without arguments.
-/
import Calculator.Expr.Task
import Calculator.Number.Text

namespace Calculator.Expr

/-! ### The text of one node -/

/-- Whether the text of an expression starts with parentheses of its own
(`_renders_parenthesized`).  A unary plus has the text of its operand. -/
def isParenthesized : Expr → Bool
  | binary .. => true
  | assign .. => true
  | group _ => true
  | unary .plus operand => operand.isParenthesized
  | _ => false

/-- A text in parentheses. -/
def parenthesized (text : String) : String := "(" ++ text ++ ")"

/-- The text of a unary minus before a text. -/
def negated (text : String) : String :=
  if text.front? = some '-' then "- " ++ text else "-" ++ text

/-- The texts of call arguments with commas between them. -/
def separated (texts : List String) : String := ", ".intercalate texts

/-- The text of a node whose operands have the given texts (`_render_node`).  A text that is missing
counts as empty. -/
def nodeText : Expr → List String → String
  | number value, _ => value.numberText
  | identifier name, _ => name
  | group body, texts =>
    if body.isParenthesized then texts.headD "" else parenthesized (texts.headD "")
  | unary .plus _, texts => texts.headD ""
  | unary .minus _, texts => negated (texts.headD "")
  | binary op _ _, texts =>
    parenthesized (texts.headD "" ++ " " ++ op.text ++ " " ++ texts.getD 1 "")
  | call name _, texts => name ++ parenthesized (separated texts)
  | assign op target _, texts =>
    parenthesized (target ++ " " ++ op.text ++ " " ++ texts.headD "")

/-! ### The text of a tree -/

/-- Carries out tasks on the list of finished texts, the latest first (the loop of `render`); `none`
when a node finds fewer texts than it has operands. -/
def renderTasks : List Task → List String → Option (List String)
  | [], texts => some texts
  | .visit e :: tasks, texts =>
    if e.children.isEmpty then renderTasks tasks (e.nodeText [] :: texts)
    else renderTasks (visits e.children ++ .finish e :: tasks) texts
  | .finish e :: tasks, texts =>
    let arity := e.children.length
    if texts.length < arity then none
    else renderTasks tasks (e.nodeText (texts.take arity).reverse :: texts.drop arity)
termination_by tasks => workLeft tasks
decreasing_by
  · have := size_pos e
    simp only [workLeft_cons, Task.work]
    omega
  · exact workLeft_expand_lt e tasks
  · simp only [workLeft_cons, Task.work]
    omega

/-- The canonical text of an expression (`render`, `__str__`). -/
def render (e : Expr) : String :=
  ((renderTasks [.visit e] []).bind List.head?).getD ""

end Calculator.Expr
